import LockScript.Proofs.Fragment.Building
import LockScript.Proofs.Fragment.Location

/-!
Two spellings of a letter.

A letter is written as a name with the fragment for an argument, `v(X)`, or before a colon, `v:X`.
Both spellings come to the same, be it a fragment or a mistake.

The fragment stands at another place, is followed by another byte and has one level of nesting less
to be read with when it is an argument. What a name builds of its arguments does not depend on
places, so a fragment that was read once is read again wherever it stands, unless the levels give
out (`exists_spelled`). Where they do, the fragment is as deep as the limit allows, and putting a
letter around it is refused as well, before anything is said about its type.
-/

namespace LockScript

/-! ## Outcomes that agree -/

/-- The same result, or errors of the same kind. A check that breaks off is of no kind. -/
inductive Agree {α : Type} : Except Error α → Except Error α → Prop
  | found (a : α) : Agree (.ok a) (.ok a)
  | refused {e e' : Error} (same : e.cause.kind? = e'.cause.kind?) : Agree (.error e) (.error e')

theorem Agree.bind {α β : Type} {made made' : Except Error α} {f f' : α → Except Error β}
    (agree : Agree made made') (goesOn : ∀ a, Agree (f a) (f' a)) :
    Agree (made >>= f) (made' >>= f') := by
  cases agree with
  | found a => exact goesOn a
  | refused same => exact .refused same

/-- A check comes out the same wherever its errors are put down. -/
theorem agree_located (limit : Int) (t : Composition) (place place' : Nat) :
    Agree (located place (t.check limit)) (located place' (t.check limit)) := by
  rcases Int.lt_or_le limit t.fragment.depth with deep | shallow
  · rw [Composition.check_of_deep deep]
    exact .refused rfl
  · have result := Composition.check_of_shallow shallow
    generalize t.check limit = answer at result
    cases result with
    | mistyped unfit => exact .refused rfl
    | broken fit below => exact .refused rfl
    | @made m fit same => exact .found m

theorem agree_applyLetter (limit : Int) (l : Letter)
    (letterOffset offset letterOffset' offset' : Nat) (m : Checked) :
    Agree (applyLetter limit l letterOffset offset m)
      (applyLetter limit l letterOffset' offset' m) := by
  cases l with
  | wrapper w => exact agree_located limit (.wrap w m) _ _
  | thenOne =>
    refine (agree_located limit (.leaf .one) _ _).bind fun one => ?_
    exact agree_located limit (.pair .andV m one) _ _
  | orZero =>
    refine (agree_located limit (.leaf .zero) _ _).bind fun zero => ?_
    exact agree_located limit (.pair .orI m zero) _ _
  | zeroOr =>
    refine (agree_located limit (.leaf .zero) _ _).bind fun zero => ?_
    exact agree_located limit (.pair .orI zero m) _ _

/-- An error of the given kind. -/
def Refuses {α : Type} (kind : ErrorKind) (made : Except Error α) : Prop :=
  ∃ e, made = .error e ∧ e.cause.kind? = some kind

theorem Refuses.agree {α : Type} {kind : ErrorKind} {made made' : Except Error α}
    (refuses : Refuses kind made) (refuses' : Refuses kind made') : Agree made made' := by
  obtain ⟨e, rfl, first⟩ := refuses
  obtain ⟨e', rfl, second⟩ := refuses'
  exact .refused (first.trans second.symm)

theorem Refuses.bind {α β : Type} {kind : ErrorKind} {made : Except Error α}
    (refuses : Refuses kind made) (f : α → Except Error β) : Refuses kind (made >>= f) := by
  obtain ⟨e, rfl, same⟩ := refuses
  exact ⟨e, rfl, same⟩

theorem refuses_located {limit : Int} {t : Composition} (deep : limit < t.fragment.depth)
    (place : Nat) : Refuses .tooDeep (located place (t.check limit)) := by
  rw [Composition.check_of_deep deep]
  exact ⟨_, rfl, rfl⟩

/-- A letter around a fragment that is as deep as the limit allows is refused for that alone. -/
theorem refuses_applyLetter {limit : Int} {m : Checked} (deep : limit ≤ m.fragment.depth)
    (l : Letter) (letterOffset offset : Nat) :
    Refuses .tooDeep (applyLetter limit l letterOffset offset m) := by
  -- The `0` or `1` of a shorthand is too deep itself, or what is made with it is.
  have added {leaf : Leaf} (plain : Facts.checkLeaf leaf = .ok ())
      (light : (Fragment.leaf leaf).Fits) {f : Checked → Except Error Checked}
      (next : ∀ x, Refuses .tooDeep (f x)) :
      Refuses .tooDeep (located letterOffset (Checked.leaf limit leaf) >>= f) := by
    rcases Int.lt_or_le limit (Composition.leaf leaf).fragment.depth with tooDeep | shallow
    · exact (refuses_located tooDeep letterOffset).bind f
    · have result : Composition.Result _ _ (Checked.leaf limit leaf) :=
        Composition.check_of_shallow shallow
      generalize Checked.leaf limit leaf = answer at result
      cases result with
      | mistyped unfit =>
        rw [Composition.corr?, plain] at unfit
        cases unfit
      | broken fit below => exact absurd light (Fragment.not_fits_of_violation below)
      | @made x fit same => exact next x
  cases l with
  | wrapper w =>
    have deeper : limit < (Composition.wrap w m).fragment.depth := by
      rw [Composition.fragment, Fragment.depth]
      omega
    exact refuses_located deeper offset
  | thenOne =>
    refine added rfl (by decide) fun one => ?_
    have deeper : limit < (Composition.pair .andV m one).fragment.depth := by
      rw [Composition.fragment, Fragment.depth]
      omega
    exact refuses_located deeper offset
  | orZero =>
    refine added rfl (by decide) fun zero => ?_
    have deeper : limit < (Composition.pair .orI m zero).fragment.depth := by
      rw [Composition.fragment, Fragment.depth]
      omega
    exact refuses_located deeper offset
  | zeroOr =>
    refine added rfl (by decide) fun zero => ?_
    have deeper : limit < (Composition.pair .orI zero m).fragment.depth := by
      rw [Composition.fragment, Fragment.depth]
      omega
    exact refuses_located deeper offset

/-! ## Reading again -/

namespace Fragment

variable {s : Settings}

/-- A text is read as the argument `item`, wherever it stands before a separator, unless it is a
fragment that is deeper than there are levels. -/
def ReplaysArg (s : Settings) (kind : ArgKind) (text : Bytes) (item : Item) : Prop :=
  ∀ (levels offset : Nat) (b : UInt8) (rest : Bytes), IsSeparator b →
    (∃ arg offset', readArg s levels kind ⟨offset, text ++ b :: rest⟩
        = .ok (arg, ⟨offset', b :: rest⟩) ∧ arg.item = item) ∨
    ∃ x, kind = .fragment ∧ item = .fragment x ∧ levels < x.fragment.depth ∧
      Refuses .tooDeep (readArg s levels kind ⟨offset, text ++ b :: rest⟩)

/-- A text is read as the arguments `items` from number `index` on, unless one of them is a fragment
that is deeper than there are levels. -/
def ReplaysArgs (s : Settings) (shape : Shape) (index : Nat) (text : Bytes) (items : List Item) :
    Prop :=
  ∀ (levels bound : Nat) (name : Bytes) (offset : Nat) (rest : Bytes), items.length ≤ bound →
    (∃ args offset', readArgs (readArg s levels) name shape bound index ⟨offset, text ++ rest⟩
        = .ok (args, ⟨offset', rest⟩) ∧ args.map Arg.item = items) ∨
    ∃ x index', .fragment x ∈ items ∧ shape.kind? index' = some .fragment ∧
      levels < x.fragment.depth ∧
      Refuses .tooDeep (readArgs (readArg s levels) name shape bound index ⟨offset, text ++ rest⟩)

section Arguments

variable {shape : Shape} {kind : ArgKind} {index : Nat} {text : Bytes} {item : Item}

theorem refuses_readArgs {readOne : ArgKind → Cursor → Except Error (Arg × Cursor)} {name : Bytes}
    {bound : Nat} {c : Cursor} {error : ErrorKind} (takes : shape.kind? index = some kind)
    (refuses : Refuses error (readOne kind c)) :
    Refuses error (readArgs readOne name shape (bound + 1) index c) := by
  rw [readArgs, takes]
  exact refuses.bind _

theorem refuses_readArgs_more {readOne : ArgKind → Cursor → Except Error (Arg × Cursor)}
    {name : Bytes} {bound offset : Nat} {c : Cursor} {rest : Bytes} {arg : Arg} {error : ErrorKind}
    (takes : shape.kind? index = some kind)
    (read : readOne kind c = .ok (arg, ⟨offset, byte ',' :: rest⟩))
    (refuses : Refuses error (readArgs readOne name shape bound (index + 1) ⟨offset + 1, rest⟩)) :
    Refuses error (readArgs readOne name shape (bound + 1) index c) := by
  rw [readArgs, takes]
  simp only [read]
  exact refuses.bind _

theorem ReplaysArg.last (takes : shape.kind? index = some kind)
    (one : ReplaysArg s kind text item) :
    ReplaysArgs s shape index (text ++ [byte ')']) [item] := by
  intro levels bound name offset rest room
  obtain ⟨bound, rfl⟩ : ∃ n, bound = n + 1 := ⟨bound - 1, by simp at room; omega⟩
  rw [List.append_assoc, List.singleton_append]
  rcases one levels offset (byte ')') rest (.inr rfl) with
    ⟨arg, offset', read, same⟩ | ⟨x, rfl, rfl, deep, refuses⟩
  · left
    exact ⟨[arg], offset' + 1, readArgs_last takes read, by rw [List.map_singleton, same]⟩
  · right
    exact ⟨x, index, List.mem_singleton_self _, takes, deep, refuses_readArgs takes refuses⟩

theorem ReplaysArg.more {text' : Bytes} {items : List Item} (takes : shape.kind? index = some kind)
    (one : ReplaysArg s kind text item) (others : ReplaysArgs s shape (index + 1) text' items) :
    ReplaysArgs s shape index (text ++ byte ',' :: text') (item :: items) := by
  intro levels bound name offset rest room
  obtain ⟨bound, rfl⟩ : ∃ n, bound = n + 1 := ⟨bound - 1, by simp at room; omega⟩
  rw [List.append_assoc, List.cons_append]
  rcases one levels offset (byte ',') (text' ++ rest) (.inl rfl) with
    ⟨arg, offset', read, same⟩ | ⟨x, rfl, rfl, deep, refuses⟩
  · rcases others levels bound name (offset' + 1) rest (Nat.le_of_succ_le_succ room) with
      ⟨args, last, readOthers, sames⟩ | ⟨x, index', member, fragment, deep, refuses⟩
    · left
      exact ⟨arg :: args, last, readArgs_more takes read readOthers,
        by rw [List.map_cons, same, sames]⟩
    · right
      exact ⟨x, index', List.mem_cons_of_mem _ member, fragment, deep,
        refuses_readArgs_more takes read refuses⟩
  · right
    exact ⟨x, index, List.mem_cons_self, takes, deep, refuses_readArgs takes refuses⟩

/-- Arguments that were read are read again, if each of them is. -/
theorem exists_replaysArgs {levels : Nat}
    (each : ∀ kind c arg after, readArg s levels kind c = .ok (arg, after) →
      (∃ b, after.peek? = some b ∧ IsSeparator b) →
      ∃ text, c.rest = text ++ after.rest ∧ ReplaysArg s kind text arg.item)
    {name : Bytes} {bound : Nat} {c last : Cursor} {args : List Arg}
    (read : readArgs (readArg s levels) name shape bound index c = .ok (args, last)) :
    ∃ text, c.rest = text ++ last.rest ∧ args.length ≤ text.length ∧
      ReplaysArgs s shape index text (args.map Arg.item) := by
  induction bound generalizing index c args with
  | zero => cases read
  | succ bound ih =>
    obtain ⟨kind, arg, ⟨offset, rest⟩, takes, first, ending⟩ := readArgs_eq_ok_iff.1 read
    cases rest with
    | nil => simp [Cursor.peek?] at ending
    | cons b rest =>
      rcases ending with ⟨⟨⟩, rfl, rfl⟩ | ⟨⟨⟩, others, later, rfl⟩
      · obtain ⟨text, whole, one⟩ := each kind c arg _ first ⟨_, rfl, .inr rfl⟩
        refine ⟨text ++ [byte ')'], ?_, ?_, one.last takes⟩
        · rw [whole, List.append_assoc]
          rfl
        · simp
      · obtain ⟨text, whole, one⟩ := each kind c arg _ first ⟨_, rfl, .inl rfl⟩
        obtain ⟨text', whole', room, replays⟩ := ih later
        refine ⟨text ++ byte ',' :: text', ?_, ?_, one.more takes replays⟩
        · rw [whole, List.append_assoc, List.cons_append, ← whole']
          rfl
        · simp
          omega

end Arguments

/-- A text is read as `core` with whatever letters are put before it, wherever it stands before a
separator or the end, unless `core` is deeper than there are levels. -/
def Replays (s : Settings) (body : Bytes) (core : Checked) : Prop :=
  ∀ (levels offset : Nat) (letters rest : Bytes), (∀ b ∈ letters, isNameByte b = true) →
    (∀ b, rest.head? = some b → IsSeparator b) →
    (∃ offset', readOne s levels ⟨offset, WrappedText.joined ⟨letters, body ++ rest⟩⟩
        = (applyLetters s.limit offset 0 letters core).map fun m => (m, ⟨offset', rest⟩)) ∨
    levels < core.fragment.depth ∧
      Refuses .tooDeep (readOne s levels ⟨offset, WrappedText.joined ⟨letters, body ++ rest⟩⟩)

/-- Whether a text begins with letters and a colon. -/
def hasLetters (text : Bytes) : Bool :=
  (splitBefore (fun b => !isNameByte b) text).2.head? = some (byte ':')

/-- How a text is read as a fragment: letters, and a body that is read as their core. -/
structure Spelled (s : Settings) (text : Bytes) (m : Checked) (letters body : Bytes)
    (core : Checked) : Prop where
  written : text = WrappedText.joined ⟨letters, body⟩
  lettered : ∀ b ∈ letters, isNameByte b = true
  bare : hasLetters body = false
  applies : ∀ offset index, applyLetters s.limit offset index letters core = .ok m
  shallow : core.fragment.depth ≤ s.limit
  replays : Replays s body core

theorem hasLetters_of_name {name tail : Bytes} (named : ∀ b ∈ name, isNameByte b = true)
    (ends : ∀ b, tail.head? = some b → isNameByte b = false ∧ b ≠ byte ':') :
    hasLetters (name ++ tail) = false := by
  have inside : ∀ b ∈ name, (!isNameByte b) = false := fun b member => by
    rw [named b member]
    rfl
  have after : ∀ b, tail.head? = some b → (!isNameByte b) = true := fun b first => by
    rw [(ends b first).1]
    rfl
  have noColon : tail.head? ≠ some (byte ':') := fun first => (ends _ first).2 rfl
  rw [hasLetters, splitBefore_word inside after]
  exact decide_eq_false noColon

/-- A word that was read is read again. -/
theorem replaysArg_of_readWord {c after : Cursor} {arg : Arg}
    (read : readWord c = .ok (arg, after))
    (separated : ∃ b, after.peek? = some b ∧ IsSeparator b) :
    ∃ text, c.rest = text ++ after.rest ∧ ReplaysArg s .word text arg.item := by
  obtain ⟨word, cut, rfl⟩ := (readWord_eq_ok_iff separated).1 read
  obtain ⟨whole, -, plain, -⟩ := upTo_eq_iff.1 cut
  refine ⟨word, whole, fun levels offset b rest separator => ?_⟩
  left
  exact ⟨_, _, readWord_word plain separator offset rest, rfl⟩

/-- A fragment that can be read again is read again as an argument. -/
theorem Spelled.replaysArg {text letters body : Bytes} {m core : Checked}
    (spelled : Spelled s text m letters body core) : ReplaysArg s .fragment text (.fragment m) := by
  intro levels offset b rest separator
  have ends : ∀ c, (b :: rest).head? = some c → IsSeparator c := by
    rintro c ⟨⟩
    exact separator
  rw [spelled.written, joined_append]
  rcases spelled.replays levels offset letters (b :: rest) spelled.lettered ends with
    ⟨offset', read⟩ | ⟨deep, refuses⟩
  · left
    rw [spelled.applies] at read
    exact ⟨.fragment m, offset', map_eq_ok_iff.2 ⟨_, read, rfl⟩, rfl⟩
  · right
    have deeper := depth_le_of_applyLetters (spelled.applies 0 0)
    obtain ⟨e, failed, kind⟩ := refuses
    refine ⟨m, rfl, rfl, by omega, e, ?_, kind⟩
    rw [readArg, failed]
    rfl

/-- The arguments after a name are read again, be there any or none. -/
theorem exists_replaysArguments {levels : Nat}
    (each : ∀ kind c arg after, readArg s levels kind c = .ok (arg, after) →
      (∃ b, after.peek? = some b ∧ IsSeparator b) →
      ∃ text, c.rest = text ++ after.rest ∧ ReplaysArg s kind text arg.item)
    {name : Bytes} {shape : Shape} {c last : Cursor} {args : List Arg}
    (read : readArguments s levels name shape c = .ok (args, last)) :
    ∃ text, c.rest = text ++ last.rest ∧
      (∀ b, text.head? = some b → b = byte '(') ∧
      ∀ (levels offset : Nat) (rest : Bytes), (∀ b, rest.head? = some b → IsSeparator b) →
        (∃ args' offset', readArguments s levels name shape ⟨offset, text ++ rest⟩
            = .ok (args', ⟨offset', rest⟩) ∧ args'.map Arg.item = args.map Arg.item) ∨
        ∃ x index, .fragment x ∈ args ∧ shape.kind? index = some .fragment ∧
          levels < x.fragment.depth ∧
          Refuses .tooDeep (readArguments s levels name shape ⟨offset, text ++ rest⟩) := by
  obtain ⟨offset, rest⟩ := c
  unfold readArguments at read
  split at read
  · next parenthesis =>
    cases rest with
    | nil => cases parenthesis
    | cons b rest =>
      cases parenthesis
      obtain ⟨text, whole, room, replays⟩ := exists_replaysArgs each read
      refine ⟨byte '(' :: text, ?_, ?_, fun levels offset rest ends => ?_⟩
      · rw [List.cons_append, ← whole]
        rfl
      · rintro b ⟨⟩
        rfl
      · have fits : (args.map Arg.item).length ≤ (byte '(' :: text ++ rest).length + 1 := by
          simp
          omega
        have opens : readArguments s levels name shape ⟨offset, byte '(' :: text ++ rest⟩
            = readArgs (readArg s levels) name shape ((byte '(' :: text ++ rest).length + 1) 0
              ⟨offset + 1, text ++ rest⟩ := if_pos rfl
        rw [opens]
        rcases replays levels _ name (offset + 1) rest fits with
          ⟨args', offset', read', same⟩ | ⟨x, index, member, takes, deep, refuses⟩
        · left
          exact ⟨args', offset', read', same⟩
        · right
          obtain ⟨arg, inside, item⟩ := List.mem_map.1 member
          rw [Arg.item_eq_fragment item] at inside
          exact ⟨x, index, inside, takes, deep, refuses⟩
  · cases read
    refine ⟨[], rfl, by simp, fun levels offset rest ends => ?_⟩
    left
    exact ⟨[], offset, if_neg (head?_ne_parenthesis ends), rfl⟩

/-- A fragment that was read is spelled, so that it is read again elsewhere. The induction is on the
levels it was read with: the arguments had one less. -/
theorem exists_spelled {levels : Nat} {c last : Cursor} {m : Checked}
    (found : readOne s levels c = .ok (m, last)) : ∃ text letters body core,
      c.rest = text ++ last.rest ∧ Spelled s text m letters body core := by
  induction levels generalizing c last m with
  | zero => cases found
  | succ levels ih =>
    obtain ⟨⟨letters, name, nameOffset⟩, after, head, args, core, opened, named, read, built,
      wrapped⟩ := readOne_eq_ok_iff.1 found
    obtain ⟨whole, -, lettered, nameBytes, solid, -, -⟩ := readOpening_eq_ok_iff.1 opened
    obtain ⟨t, makes, checked⟩ := exists_makes_of_build built
    have each : ∀ kind c arg after, readArg s levels kind c = .ok (arg, after) →
        (∃ b, after.peek? = some b ∧ IsSeparator b) →
        ∃ text, c.rest = text ++ after.rest ∧ ReplaysArg s kind text arg.item := by
      intro kind c arg after one separated
      cases kind with
      | word => exact replaysArg_of_readWord one separated
      | fragment =>
        obtain ⟨⟨x, stop⟩, first, ⟨⟩⟩ := map_eq_ok_iff.1 one
        obtain ⟨text, letters, body, core, whole, spelled⟩ := ih first
        exact ⟨text, whole, spelled.replaysArg⟩
    obtain ⟨text, listed, opens, replays⟩ := exists_replaysArguments each read
    refine ⟨WrappedText.joined ⟨letters, name ++ text⟩, letters, name ++ text, core, ?_, rfl,
      lettered, ?_, fun offset index => applyLetters_at wrapped, ?_, ?_⟩
    · rw [whole, listed, joined_append, joined_append, List.append_assoc]
    · refine hasLetters_of_name nameBytes fun b first => ?_
      rw [opens b first]
      decide
    · obtain ⟨shallow, same⟩ := Composition.check_eq_ok checked
      rw [same]
      exact shallow
    · intro levels' offset letters' rest lettered' ends
      cases levels' with
      | zero =>
        right
        exact ⟨core.fragment.depth_pos, _, rfl, rfl⟩
      | succ levels' =>
        have punctuated :
            ∀ b, (text ++ rest).head? = some b → Expression.isPunctuation b = true := by
          intro b first
          cases text with
          | nil => exact isPunctuation_of_isSeparator (ends b first)
          | cons d text =>
            cases first
            rw [opens b rfl]
            decide
        obtain ⟨nameOffset', place, opened'⟩ :=
          exists_readOpening lettered' nameBytes solid punctuated offset
        rw [List.append_assoc, readOne_of_opening opened' named]
        rcases replays levels' place rest ends with
          ⟨args', offset', read', same⟩ | ⟨x, index, member, takes, deep, refuses⟩
        · left
          refine ⟨offset', ?_⟩
          rw [read']
          simp only [bind, Except.bind, makes.build_at checked same]
          cases applyLetters s.limit offset 0 letters' core <;> rfl
        · right
          have deeper := depth_lt_of_child (makes.mem_children takes member)
          rw [← (Composition.check_eq_ok checked).2] at deeper
          exact ⟨by omega, refuses.bind _⟩

/-! ## Both spellings -/

/-- A letter before the letters of a text, or before a colon of its own. -/
def coloned (l : Letter) (text : Bytes) : Bytes :=
  if hasLetters text then byte l.char :: text else byte l.char :: byte ':' :: text

/-- A letter is a name as well. -/
theorem ofName?_byte (l : Letter) : Head.ofName? [byte l.char] = some (.letter l) := by
  have all : ∀ l ∈ Letter.all, Head.ofName? [byte l.char] = some (.letter l) := by decide +kernel
  refine all l ?_
  cases l with
  | wrapper w => cases w <;> decide
  | _ => decide

section Spellings

variable {text letters body : Bytes} {m core : Checked}

theorem Spelled.coloned_eq (spelled : Spelled s text m letters body core) (l : Letter) :
    coloned l text = WrappedText.joined ⟨byte l.char :: letters, body⟩ := by
  rw [WrappedText.joined, if_neg (List.cons_ne_nil _ _), coloned]
  by_cases none : letters = []
  · have plain : text = body := spelled.written.trans (if_pos none)
    rw [plain, spelled.bare, none]
    rfl
  · have split : text = letters ++ byte ':' :: body := spelled.written.trans (if_neg none)
    have inside : ∀ b ∈ letters, (!isNameByte b) = false := fun b member => by
      rw [spelled.lettered b member]
      rfl
    have colon : ∀ b, (byte ':' :: body).head? = some b → (!isNameByte b) = true := by
      rintro b ⟨⟩
      decide
    have has : hasLetters text = true := by
      rw [split, hasLetters, splitBefore_word inside colon]
      rfl
    rw [if_pos has, split]
    rfl

theorem read_of_readOne {offset : Nat} {made : Except Error Checked}
    (whole : readOne s s.limit.toNat (.start text) = made.map fun m => (m, ⟨offset, []⟩)) :
    read s text = made := by
  rw [read, whole]
  cases made with
  | error e => rfl
  | ok m => rfl

/-- A letter before a colon is put around the fragment. -/
theorem Spelled.read_coloned (spelled : Spelled s text m letters body core) (l : Letter) :
    read s (coloned l text) = applyLetter s.limit l 0 0 m := by
  have lettered : ∀ b ∈ byte l.char :: letters, isNameByte b = true :=
    List.forall_mem_cons.2 ⟨l.isNameByte_byte, spelled.lettered⟩
  have outermost : applyLetters s.limit 0 0 (byte l.char :: letters) core
      = applyLetter s.limit l 0 0 m := by
    rw [applyLetters, spelled.applies, Letter.ofByte?_byte]
    rfl
  have whole := spelled.replays s.limit.toNat 0 (byte l.char :: letters) [] lettered (by simp)
  rw [List.append_nil, ← spelled.coloned_eq l, outermost] at whole
  rcases whole with ⟨offset, read⟩ | ⟨deep, -⟩
  · exact read_of_readOne read
  · have shallow := spelled.shallow
    omega

/-- A letter as a name is put around the fragment, unless this is too deep to be read as an
argument. -/
theorem Spelled.read_called (spelled : Spelled s text m letters body core) (l : Letter) :
    (∃ place, read s (call [byte l.char] [text]) = applyLetter s.limit l place place m) ∨
      s.limit ≤ m.fragment.depth ∧ Refuses .tooDeep (read s (call [byte l.char] [text])) := by
  obtain ⟨levels, limited⟩ : ∃ n, s.limit.toNat = n + 1 := by
    have shallow := spelled.shallow
    have := core.fragment.depth_pos
    exact ⟨s.limit.toNat - 1, by omega⟩
  have opened : ∃ nameOffset place, readOpening (.start (call [byte l.char] [text]))
      = .ok (⟨[], [byte l.char], nameOffset⟩, ⟨place, byte '(' :: (text ++ [byte ')'])⟩) := by
    have unlettered : ∀ b ∈ ([] : Bytes), isNameByte b = true := by simp
    have named : ∀ b ∈ [byte l.char], isNameByte b = true := by simpa using l.isNameByte_byte
    refine exists_readOpening unlettered named (List.cons_ne_nil _ _) ?_ 0
    rintro b ⟨⟩
    decide
  obtain ⟨nameOffset, place, opened⟩ := opened
  have parenthesis : readArguments s levels [byte l.char] (Head.letter l).shape
      ⟨place, byte '(' :: (text ++ [byte ')'])⟩ = readArgs (readArg s levels) [byte l.char]
        (Head.letter l).shape ((byte '(' :: (text ++ [byte ')'])).length + 1) 0
        ⟨place + 1, text ++ [byte ')']⟩ := if_pos rfl
  have one : readOne s (levels + 1) _ = _ := readOne_of_opening opened (ofName?_byte l)
  rw [parenthesis] at one
  rcases spelled.replaysArg levels (place + 1) (byte ')') [] (.inr rfl) with
    ⟨arg, last, read, same⟩ | ⟨x, -, ⟨⟩, deep, refuses⟩
  · left
    obtain rfl := Arg.item_eq_fragment same
    have whole : readOne s s.limit.toNat (.start (call [byte l.char] [text]))
        = (applyLetter s.limit l nameOffset nameOffset m).map fun m => (m, ⟨last + 1, []⟩) := by
      rw [limited, one, readArgs_last rfl read]
      show (applyLetter s.limit l nameOffset nameOffset m >>= _) = _
      cases applyLetter s.limit l nameOffset nameOffset m with
      | error e => rfl
      | ok m => rfl
    exact ⟨nameOffset, read_of_readOne whole⟩
  · right
    refine ⟨by omega, ?_⟩
    rw [Fragment.read, limited, one]
    exact ((refuses_readArgs rfl refuses).bind _).bind _

/-- Both spellings are read alike: the fragment is read again in both, or it is too deep for the
letter in either. -/
theorem agree_read_called (l : Letter) (accepted : read s text = .ok m) :
    Agree (read s (call [byte l.char] [text])) (read s (coloned l text)) := by
  obtain ⟨last, found, none⟩ := read_eq_ok_iff.1 accepted
  obtain ⟨text', letters, body, core, whole, spelled⟩ := exists_spelled found
  obtain rfl : text = text' := by
    rw [List.head?_eq_none_iff.1 none, List.append_nil] at whole
    exact whole
  rw [spelled.read_coloned l]
  rcases spelled.read_called l with ⟨place, read⟩ | ⟨deep, refuses⟩
  · rw [read]
    exact agree_applyLetter s.limit l place place 0 0 m
  · exact refuses.agree (refuses_applyLetter deep l 0 0)

/-- A letter comes to the same as a name with the text for its argument and before the text with a
colon: both spellings give one fragment, or both are mistakes of one kind. The kind is a known one,
unless the text is long beyond measure. -/
theorem read_called_agrees (l : Letter) (accepted : read s text = .ok m) :
    Agree (read s (call [byte l.char] [text])) (read s (coloned l text)) ∧
      (text.length < 0x1000000000000000 → ∀ e, read s (call [byte l.char] [text]) = .error e →
        ∃ kind, e.cause.kind? = some kind) := by
  refine ⟨agree_read_called l accepted, fun short e failed => ?_⟩
  have length : (call [byte l.char] [text]).length = text.length + 3 := by
    simp [call]
  have regular := regular_read s (call [byte l.char] [text])
  rw [failed] at regular
  exact regular.kind (by omega)

end Spellings

/-- Three letters and names, one within the other. -/
def nestedText : Bytes := utf8 "v(c(pk(A)))"

/-- With room for three levels, the fourth is found missing by the reader in one spelling and by the
check in the other. -/
theorem read_called_agrees_nested :
    ((read {} (utf8 "t:v(c(pk(A)))")).isOk = true ∧
      Agree (read {} (utf8 "t(v(c(pk(A))))")) (read {} (utf8 "t:v(c(pk(A)))"))) ∧
    (read { limit := 3 } (utf8 "t:v(c(pk(A)))")).isOk = false ∧
      Agree (read { limit := 3 } (utf8 "t(v(c(pk(A))))"))
        (read { limit := 3 } (utf8 "t:v(c(pk(A)))")) ∧
      ∀ e, read { limit := 3 } (utf8 "t(v(c(pk(A))))") = .error e →
        ∃ kind, e.cause.kind? = some kind := by
  have asName : utf8 "t(v(c(pk(A))))" = call [byte Letter.thenOne.char] [nestedText] := by
    decide +kernel
  have withColon : utf8 "t:v(c(pk(A)))" = coloned .thenOne nestedText := by decide +kernel
  have short : nestedText.length < 0x1000000000000000 := by decide +kernel
  have agree (s : Settings) (accepted : (read s nestedText).isOk = true) :
      Agree (read s (utf8 "t(v(c(pk(A))))")) (read s (utf8 "t:v(c(pk(A)))")) ∧
        ∀ e, read s (utf8 "t(v(c(pk(A))))") = .error e → ∃ kind, e.cause.kind? = some kind := by
    rw [asName, withColon]
    cases found : read s nestedText with
    | error e =>
      rw [found] at accepted
      cases accepted
    | ok m =>
      obtain ⟨same, known⟩ := read_called_agrees .thenOne found
      exact ⟨same, known short⟩
  refine ⟨⟨by decide +kernel, (agree {} ?_).1⟩, by decide +kernel, agree { limit := 3 } ?_⟩
  · decide +kernel
  · decide +kernel

end Fragment

end LockScript
