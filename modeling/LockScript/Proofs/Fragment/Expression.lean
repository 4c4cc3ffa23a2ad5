import LockScript.Proofs.Fragment.RoundTrip
import LockScript.Proofs.Expression.RoundTrip

/-!
Fragments by way of expressions.

A fragment can be read from a text at once, or the text is read as an expression and the expression
taken for a fragment. In a text without blanks both find the same fragments. One reader looks for
the letters of names and the other for punctuation, but names hold no punctuation, and what is not
made of the letters of names is no name (`readOpening_iff`). Arguments are read one by one by both;
the reader of expressions wants them not to be empty, which no number, digest or key is. One reader
counts fragments and the other expressions, among them the words below the deepest fragment, so
that one has a level more than the other.
-/

namespace LockScript

/-! ## Reading expressions without blanks -/

namespace Expression

theorem lt_of_isPunctuation {b : UInt8} (punctuation : isPunctuation b = true) : b < 0x80 := by
  have among : b = byte '(' ∨ b = byte ',' ∨ b = byte ')' := by
    simpa [isPunctuation, or_assoc] using punctuation
  rcases among with rfl | rfl | rfl
  · decide
  · decide
  · decide

variable {limit : Int} {levels : Nat} {c last : Cursor} {e : Expression} {es : List Expression}
  {name : Bytes}

theorem readName_eq_ok_iff {start : Nat} {word : Bytes} (blankless : Blankless word)
    {stop : Cursor} : readName start word stop = .ok name ↔ word ≠ [] ∧ name = word := by
  have noGap : ¬ word.any isGap = true := by
    rw [List.any_eq_true]
    rintro ⟨b, member, gap⟩
    rw [blankless.isGap_eq_false member] at gap
    cases gap
  rw [readName, blankless.trim_eq, if_neg noGap]
  split
  · next empty => simp [empty]
  · next some => simp [some, eq_comm]

/-- A word and what is left after it have no blanks if the text has none. -/
theorem blankless_of_upTo {word : Bytes} (blankless : Blankless c.rest)
    (cut : c.upTo isPunctuation = (word, last)) : Blankless word ∧ Blankless last.rest := by
  obtain ⟨whole, -, -, ends⟩ := upTo_eq_iff.1 cut
  rw [whole] at blankless
  exact blankless.split fun b first => lt_of_isPunctuation (ends b first)

/-- What one expression is read from in a text without blanks. -/
theorem readOne_eq_ok_iff (blankless : Blankless c.rest) :
    readOne limit (levels + 1) c = .ok (e, last) ↔ ∃ word stop args,
      c.upTo isPunctuation = (word, stop) ∧ word ≠ [] ∧
      readArguments limit levels word stop = .ok (args, last) ∧ e = .node word c.offset args := by
  rw [readOne_succ_eq_ok_iff]
  constructor
  · intro ⟨word, stop, name, args, cut, named, read, same⟩
    obtain ⟨some, rfl⟩ := (readName_eq_ok_iff (blankless_of_upTo blankless cut).1).1 named
    exact ⟨_, stop, args, cut, some, read, same⟩
  · intro ⟨word, stop, args, cut, solid, read, same⟩
    have named : readName c.offset word stop = .ok word :=
      (readName_eq_ok_iff (blankless_of_upTo blankless cut).1).2 ⟨solid, rfl⟩
    exact ⟨word, stop, word, args, cut, named, read, same⟩

/-- What a list of arguments is read from if there are no gaps to skip after an argument. -/
theorem readArgs_eq_ok_iff {readOne : Cursor → Except Error (Expression × Cursor)} {bound : Nat}
    (kept : ∀ e after, readOne c = .ok (e, after) → Blankless after.rest) :
    readArgs readOne name (bound + 1) c = .ok (es, last) ↔ ∃ e after,
      readOne c = .ok (e, after) ∧
        (after.peek? = some (byte ')') ∧ es = [e] ∧ last = after.next ∨
          after.peek? = some (byte ',') ∧ ∃ others,
            readArgs readOne name bound after.next = .ok (others, last) ∧ es = e :: others) := by
  have stays {e : Expression} {after : Cursor} (first : readOne c = .ok (e, after)) :
      after.skip isGap = after :=
    skip_eq_self fun b found => (kept e after first).isGap_eq_false (List.mem_of_mem_head? found)
  rw [readArgs_succ_eq_ok_iff]
  refine exists_congr fun e => exists_congr fun after => and_congr_right fun first => ?_
  rw [stays first]

theorem ne_nil_of_readArgs {readOne : Cursor → Except Error (Expression × Cursor)} {bound : Nat}
    (read : readArgs readOne name bound c = .ok (es, last)) : es ≠ [] := by
  rintro rfl
  cases bound with
  | zero => cases read
  | succ bound =>
    obtain ⟨⟨e, after⟩, -, read⟩ := bind_eq_ok_iff.1 read
    dsimp only at read
    split at read
    · cases read
    · split at read
      · obtain ⟨⟨others, stop⟩, -, ⟨⟩⟩ := bind_eq_ok_iff.1 read
      · split at read <;> cases read

theorem blankless_next {b : UInt8} (blankless : Blankless c.rest) (found : c.peek? = some b)
    (punctuation : isPunctuation b = true) : Blankless c.next.rest := by
  obtain ⟨offset, rest⟩ := c
  cases rest with
  | nil => cases found
  | cons d rest =>
    cases found
    exact blankless.tail (lt_of_isPunctuation punctuation)

theorem blankless_of_readArgs {readOne : Cursor → Except Error (Expression × Cursor)}
    (each : ∀ {c : Cursor} {e : Expression} {after : Cursor}, Blankless c.rest →
      readOne c = .ok (e, after) → Blankless after.rest)
    {bound : Nat} (blankless : Blankless c.rest)
    (read : readArgs readOne name bound c = .ok (es, last)) : Blankless last.rest := by
  induction bound generalizing c es with
  | zero => cases read
  | succ bound ih =>
    obtain ⟨e, after, first, ending⟩ :=
      (readArgs_eq_ok_iff fun e after => each blankless).1 read
    have kept := each blankless first
    rcases ending with ⟨found, -, rfl⟩ | ⟨found, others, later, -⟩
    · exact blankless_next kept found (by decide)
    · exact ih (blankless_next kept found (by decide)) later

/-- What is left after an expression has no blanks if the text has none. -/
theorem blankless_of_readOne (blankless : Blankless c.rest)
    (read : readOne limit levels c = .ok (e, last)) : Blankless last.rest := by
  induction levels generalizing c e last with
  | zero => cases read
  | succ levels ih =>
    obtain ⟨word, stop, args, cut, -, read, -⟩ := (readOne_eq_ok_iff blankless).1 read
    have kept := (blankless_of_upTo blankless cut).2
    unfold readArguments at read
    split at read
    · next found => exact blankless_of_readArgs ih (blankless_next kept found (by decide)) read
    · cases read
      exact kept

end Expression

/-! ## Letters, names and words -/

theorem Head.eq_of_ofName? {name : Bytes} {head : Head} (found : Head.ofName? name = some head) :
    name = utf8 head.name := by
  simpa [eq_comm] using List.find?_some found

theorem Letter.eq_of_ofByte? {b : UInt8} {l : Letter} (found : Letter.ofByte? b = some l) :
    b = byte l.char := by
  simpa [eq_comm] using List.find?_some found

theorem isNameByte_of_applyLetters {limit : Int} {offset index : Nat} {letters : Bytes}
    {core m : Checked} (made : applyLetters limit offset index letters core = .ok m) :
    ∀ b ∈ letters, Fragment.isNameByte b = true := by
  induction letters generalizing index m with
  | nil => exact fun b member => nomatch member
  | cons b rest ih =>
    obtain ⟨inner, wrapped, made⟩ := bind_eq_ok_iff.1 made
    refine List.forall_mem_cons.2 ⟨?_, ih wrapped⟩
    split at made
    · cases made
    · next l found =>
      rw [Letter.eq_of_ofByte? found]
      exact l.isNameByte_byte

section Words

variable {s : Settings} {place : Nat}

theorem Key.Reader.Standard.ne_nil {read : Key.Reader} (standard : read.Standard) {text : Bytes}
    {k : Key} (found : read text = .ok k) : text ≠ [] := by
  rintro rfl
  cases standard <;> cases found

theorem ne_nil_of_key (standard : s.readKey.Standard) {text : Bytes} {k : Key}
    (found : Arg.key s text place = .ok k) : text ≠ [] := by
  unfold Arg.key at found
  split at found
  · next read => exact standard.ne_nil read
  · cases found

theorem ne_nil_of_digest {width : Nat} (wide : 0 < width) {text : Bytes} {d : Digest width}
    (found : Arg.digest width text place = .ok d) : text ≠ [] := by
  rintro rfl
  have refused : Digest.ofBytes? width [] = none := dif_neg (Nat.ne_of_lt wide)
  simp only [Arg.digest, Hex.decode, refused] at found
  cases found

theorem ne_nil_of_keyHash (standard : s.readKey.Standard) {text : Bytes} {hash : Digest 20}
    (found : Arg.keyHash s text place = .ok hash) : text ≠ [] := by
  unfold Arg.keyHash at found
  split at found
  · next read => exact ne_nil_of_digest (by decide) read
  · obtain ⟨k, read, -⟩ := map_eq_ok_iff.1 found
    exact ne_nil_of_key standard read

theorem ne_nil_of_lockTime {text : Bytes} {lock : UInt32}
    (found : Arg.lockTime text place = .ok lock) : text ≠ [] := by
  rintro rfl
  cases found

theorem ne_nil_of_threshold {text : Bytes} {k : Int} (found : Arg.threshold text place = .ok k) :
    text ≠ [] := by
  rintro rfl
  cases found

theorem ne_nil_of_keys (standard : s.readKey.Standard) {args : List Arg} {keys : List Key}
    (found : Arg.keys s args = .ok keys) {text : Bytes} (member : .word text place ∈ args) :
    text ≠ [] := by
  induction args generalizing keys with
  | nil => cases member
  | cons arg rest ih =>
    cases arg with
    | word first offset =>
      obtain ⟨k, read, found⟩ := bind_eq_ok_iff.1 found
      obtain ⟨ks, others, -⟩ := bind_eq_ok_iff.1 found
      rcases List.mem_cons.1 member with same | later
      · cases same
        exact ne_nil_of_key standard read
      · exact ih others later
    | fragment x =>
      rcases List.mem_cons.1 member with same | later
      · cases same
      · exact ih found later

/-- Nothing is built from a word that is empty where a name takes a word. -/
theorem ne_nil_of_build (standard : s.readKey.Standard) {head : Head} {name : Bytes} {offset : Nat}
    {args : List Arg} {m : Checked} (made : build s head name offset args = .ok m) {index : Nat}
    {text : Bytes} (due : head.shape.kind? index = some .word)
    (given : args[index]? = some (.word text place)) : text ≠ [] := by
  -- The only argument of a name is the one that is given.
  have only {word : Bytes} {start : Nat} (alone : args = [.word word start]) (solid : word ≠ []) :
      text ≠ [] := by
    have same : index = 0 ∧ Arg.word word start = .word text place := by
      simpa [alone, List.getElem?_singleton] using given
    cases same.2
    exact solid
  have first {word : Bytes} {start : Nat} {rest : List Arg}
      (leads : args = .word word start :: rest) (zero : index = 0) (solid : word ≠ []) :
      text ≠ [] := by
    subst leads zero
    cases given
    exact solid
  cases head with
  | pk =>
    simp only [build] at made
    split at made
    · obtain ⟨k, found, -⟩ := bind_eq_ok_iff.1 made
      exact only rfl (ne_nil_of_key standard found)
    · cases made
  | pkHash =>
    simp only [build] at made
    split at made
    · obtain ⟨hash, found, -⟩ := bind_eq_ok_iff.1 made
      exact only rfl (ne_nil_of_keyHash standard found)
    · cases made
  | after =>
    simp only [build] at made
    split at made
    · obtain ⟨lock, found, -⟩ := bind_eq_ok_iff.1 made
      exact only rfl (ne_nil_of_lockTime found)
    · cases made
  | older =>
    simp only [build] at made
    split at made
    · obtain ⟨lock, found, -⟩ := bind_eq_ok_iff.1 made
      exact only rfl (ne_nil_of_lockTime found)
    · cases made
  | hashLock f =>
    simp only [build] at made
    split at made
    · obtain ⟨image, found, -⟩ := bind_eq_ok_iff.1 made
      exact only rfl (ne_nil_of_digest (by cases f <;> decide) found)
    · cases made
  | thresh =>
    simp only [build] at made
    split at made
    · obtain ⟨k, found, -⟩ := bind_eq_ok_iff.1 made
      have zero : index = 0 := by
        cases index with
        | zero => rfl
        | succ index => cases due
      exact first rfl zero (ne_nil_of_threshold found)
    · cases made
  | multi =>
    simp only [build] at made
    split at made
    · split at made
      · cases made
      · obtain ⟨k, found, made⟩ := bind_eq_ok_iff.1 made
        obtain ⟨keys, read, -⟩ := bind_eq_ok_iff.1 made
        cases index with
        | zero => exact first rfl rfl (ne_nil_of_threshold found)
        | succ index => exact ne_nil_of_keys standard read (List.mem_of_getElem? given)
    · cases made
  | _ =>
    -- The other names take no words.
    rcases index with _ | _ | _ | index <;> cases due

end Words

namespace Fragment

variable {s : Settings} {c after last : Cursor} {letters name : Bytes} {nameOffset : Nat}

/-! ## Openings -/

theorem ne_colon_of_isNameByte {b : UInt8} (named : isNameByte b = true) : b ≠ byte ':' := by
  rintro rfl
  cases named

theorem splitName_eq_ok_iff {word : Bytes} {offset : Nat} :
    splitName word offset = .ok (letters, name, nameOffset) ↔
      word = WrappedText.joined ⟨letters, name⟩ ∧ byte ':' ∉ letters ∧ byte ':' ∉ name ∧
        nameOffset = offset + (word.length - name.length) := by
  unfold splitName WrappedText.joined
  dsimp only
  constructor
  · intro cut
    split at cut
    · next before found =>
      cases cut
      obtain ⟨whole, inside, -⟩ := splitBefore_eq_iff.1 found
      rw [List.append_nil] at whole
      subst whole
      exact ⟨rfl, by simp, fun member => by simpa using inside _ member, by simp⟩
    · next before colon rest found =>
      obtain ⟨whole, inside, ends⟩ := splitBefore_eq_iff.1 found
      obtain rfl : colon = byte ':' := by simpa using ends colon rfl
      split at cut
      · cases cut
      · next single =>
        split at cut
        · cases cut
        · next some =>
          cases cut
          rw [if_neg some]
          exact ⟨whole, fun member => by simpa using inside _ member, by simpa using single, rfl⟩
  · rintro ⟨whole, noneBefore, noneAfter, rfl⟩
    have before : ∀ b ∈ letters, decide (b = byte ':') = false := fun b member =>
      decide_eq_false fun same => noneBefore (same ▸ member)
    split at whole
    · next none =>
      subst none whole
      have inside : ∀ b ∈ word, decide (b = byte ':') = false := fun b member =>
        decide_eq_false fun same => noneAfter (same ▸ member)
      have cut : splitBefore (· = byte ':') word = (word, []) :=
        splitBefore_eq_iff.2 ⟨(List.append_nil word).symm, inside, by simp⟩
      simp [cut]
    · next some =>
      subst whole
      have cut : splitBefore (· = byte ':') (letters ++ byte ':' :: name)
          = (letters, byte ':' :: name) := splitBefore_eq_iff.2 ⟨rfl, before, by simp⟩
      simp [cut, noneAfter, some]

theorem upTo_name_iff {word : Bytes} :
    (c.upTo fun b => !isNameByte b) = (word, after) ↔ c.rest = word ++ after.rest ∧
      after.offset = c.offset + word.length ∧ (∀ b ∈ word, isNameByte b = true) ∧
      ∀ b, after.peek? = some b → isNameByte b = false := by
  simp [upTo_eq_iff]

/-- What an opening is read from: letters and a name, up to a byte that is neither of a name nor a
colon. -/
theorem readOpening_eq_ok_iff :
    readOpening c = .ok (⟨letters, name, nameOffset⟩, after) ↔
      c.rest = WrappedText.joined ⟨letters, name⟩ ++ after.rest ∧
      after.offset = c.offset + (WrappedText.joined ⟨letters, name⟩).length ∧
      (∀ b ∈ letters, isNameByte b = true) ∧ (∀ b ∈ name, isNameByte b = true) ∧ name ≠ [] ∧
      nameOffset = after.offset - name.length ∧
      ∀ b, after.peek? = some b → isNameByte b = false ∧ b ≠ byte ':' := by
  unfold readOpening WrappedText.joined
  dsimp only
  constructor
  · intro opened
    cases cut : c.upTo fun b => !isNameByte b with
    | mk word stop =>
    obtain ⟨whole, place, inside, ends⟩ := upTo_name_iff.1 cut
    rw [cut] at opened
    dsimp only at opened
    split at opened
    · next colon =>
      cases cut' : stop.next.upTo fun b => !isNameByte b with
      | mk word' stop' =>
      obtain ⟨whole', place', inside', ends'⟩ := upTo_name_iff.1 cut'
      rw [cut'] at opened
      split at opened
      · cases opened
      · next single =>
        split at opened
        · cases opened
        · next lettered =>
          obtain ⟨_, ⟨⟩, opened⟩ := bind_eq_ok_iff.1 opened
          split at opened
          · cases opened
          · next some =>
            cases opened
            obtain ⟨offset, rest⟩ := stop
            cases rest with
            | nil => cases colon
            | cons b rest =>
              cases colon
              dsimp only [Cursor.next] at whole place whole' place' ⊢
              rw [if_neg lettered, whole, whole', place', place]
              refine ⟨by simp, by simp; omega, inside, inside', some, rfl, fun b found => ?_⟩
              refine ⟨ends' b found, ?_⟩
              rintro rfl
              exact single found
    · next colon =>
      obtain ⟨_, ⟨⟩, opened⟩ := bind_eq_ok_iff.1 opened
      split at opened
      · cases opened
      · next some =>
        cases opened
        refine ⟨whole, place, by simp, inside, some, rfl, fun b found => ⟨ends b found, ?_⟩⟩
        rintro rfl
        exact colon found
  · rintro ⟨whole, place, lettered, named, some, rfl, ends⟩
    have noColon : after.peek? ≠ .some (byte ':') := fun found => (ends _ found).2 rfl
    split at whole
    · next none =>
      subst none
      have cut := upTo_name_iff.2 ⟨whole, place, named, fun b found => (ends b found).1⟩
      rw [cut]
      dsimp only
      rw [if_neg noColon]
      exact if_neg some
    · next letters' =>
      have cut : (c.upTo fun b => !isNameByte b)
          = (letters, ⟨c.offset + letters.length, byte ':' :: (name ++ after.rest)⟩) :=
        upTo_name_iff.2 ⟨by simpa using whole, rfl, lettered, by rintro b ⟨⟩; decide⟩
      have cut' : (Cursor.upTo (fun b => !isNameByte b)
          ⟨c.offset + letters.length + 1, name ++ after.rest⟩) = (name, after) :=
        upTo_name_iff.2 ⟨rfl, by rw [place, if_neg letters']; simp; omega, named,
          fun b found => (ends b found).1⟩
      rw [cut]
      refine (if_pos rfl).trans ?_
      simp only [Cursor.next, cut', if_neg noColon, if_neg letters']
      exact if_neg some

theorem mem_joined {b : UInt8} (member : b ∈ WrappedText.joined ⟨letters, name⟩) :
    b ∈ letters ∨ b = byte ':' ∨ b ∈ name := by
  unfold WrappedText.joined at member
  split at member
  · exact .inr (.inr member)
  · simpa using member

theorem length_le_length_joined (letters name : Bytes) :
    name.length ≤ (WrappedText.joined ⟨letters, name⟩).length := by
  unfold WrappedText.joined
  split
  · exact Nat.le_refl _
  · simp
    omega

theorem ne_nil_of_splitName {word : Bytes} {offset : Nat} (some : name ≠ [])
    (cut : splitName word offset = .ok (letters, name, nameOffset)) : word ≠ [] := by
  obtain ⟨rfl, -⟩ := splitName_eq_ok_iff.1 cut
  have length := length_le_length_joined letters name
  have positive := List.length_pos_of_ne_nil some
  exact List.ne_nil_of_length_pos (by omega)

/-- An opening of letters and a name up to punctuation is a word that is cut at its colon. -/
theorem readOpening_iff (lettered : ∀ b ∈ letters, isNameByte b = true)
    (named : ∀ b ∈ name, isNameByte b = true) (some : name ≠ [])
    (ends : ∀ b, after.peek? = .some b → Expression.isPunctuation b = true) :
    readOpening c = .ok (⟨letters, name, nameOffset⟩, after) ↔ ∃ word,
      c.upTo Expression.isPunctuation = (word, after) ∧
        splitName word c.offset = .ok (letters, name, nameOffset) := by
  have length := length_le_length_joined letters name
  rw [readOpening_eq_ok_iff]
  constructor
  · rintro ⟨whole, place, -, -, -, rfl, -⟩
    refine ⟨_, upTo_eq_iff.2 ⟨whole, place, fun b member => ?_, ends⟩,
      splitName_eq_ok_iff.2 ⟨rfl, fun member => ?_, fun member => ?_, by omega⟩⟩
    · rcases mem_joined member with member | rfl | member
      · exact isPunctuation_of_isNameByte (lettered b member)
      · decide
      · exact isPunctuation_of_isNameByte (named b member)
    · exact ne_colon_of_isNameByte (lettered _ member) rfl
    · exact ne_colon_of_isNameByte (named _ member) rfl
  · rintro ⟨word, cut, split⟩
    obtain ⟨whole, place, -, -⟩ := upTo_eq_iff.1 cut
    obtain ⟨rfl, -, -, rfl⟩ := splitName_eq_ok_iff.1 split
    exact ⟨whole, place, lettered, named, some, by omega,
      fun b found => isNameByte_of_isPunctuation (ends b found)⟩

/-! ## Arguments -/

/-- The argument of the given kind that an expression stands for. -/
def argOf (s : Settings) (depth : Nat) (kind : ArgKind) (e : Expression) : Except Error Arg :=
  match kind with
  | .fragment => (ofExpressionAt s depth e).map Arg.fragment
  | .word =>
    if e.args.isEmpty then .ok (.word e.name e.offset)
    else textError (.argumentsToLeaf e.name) e.offset

variable {depth levels : Nat} {shape : Shape} {kind : ArgKind} {index : Nat} {arg : Arg}
  {args : List Arg} {e : Expression} {es : List Expression} {m : Checked}

theorem argsOf_cons_eq_ok_iff (takes : shape.kind? index = some kind) :
    argsOf s depth shape index (e :: es) = .ok args ↔ ∃ first others,
      argOf s (depth + 1) kind e = .ok first ∧
      argsOf s depth shape (index + 1) es = .ok others ∧ args = first :: others := by
  have opened (made : Except Error Arg) :
      (made >>= fun first => argsOf s depth shape (index + 1) es >>= fun others =>
        .ok (first :: others)) = .ok args ↔ ∃ first others, made = .ok first ∧
          argsOf s depth shape (index + 1) es = .ok others ∧ args = first :: others := by
    simp only [bind_eq_ok_iff, Except.ok.injEq, exists_and_left, @eq_comm _ args]
  rw [← opened, argsOf, takes]
  cases kind with
  | fragment => rw [if_pos rfl, argOf]
  | word =>
    rw [if_neg (by decide), argOf]
    dsimp only
    split <;> rfl

theorem exists_kind?_iff : (∃ kind, shape.kind? index = some kind) ↔
    (shape.rest = none → index < shape.fixed.length) := by
  unfold Shape.kind?
  cases found : shape.fixed[index]? with
  | none =>
    have beyond := List.getElem?_eq_none_iff.1 found
    cases shape.rest with
    | none => simpa using beyond
    | some kind => simp
  | some kind =>
    obtain ⟨inside, -⟩ := List.getElem?_eq_some_iff.1 found
    simp [inside]

/-- What a list of arguments is read from: one of them, and then its end or the others. -/
theorem readArgs_eq_ok_iff {readOne : ArgKind → Cursor → Except Error (Arg × Cursor)}
    {bound : Nat} :
    readArgs readOne name shape (bound + 1) index c = .ok (args, last) ↔ ∃ kind arg after,
      shape.kind? index = some kind ∧ readOne kind c = .ok (arg, after) ∧
        (after.peek? = some (byte ')') ∧ args = [arg] ∧ last = after.next ∨
          after.peek? = some (byte ',') ∧ ∃ others,
            readArgs readOne name shape bound (index + 1) after.next = .ok (others, last) ∧
              args = arg :: others) := by
  constructor
  · intro read
    unfold readArgs at read
    split at read
    · cases read
    · next kind takes =>
      obtain ⟨⟨arg, after⟩, first, read⟩ := bind_eq_ok_iff.1 read
      refine ⟨kind, arg, after, takes, first, ?_⟩
      dsimp only at read
      split at read
      · cases read
      · next b found =>
        rw [found]
        split at read
        · next closing =>
          cases read
          exact .inl ⟨by rw [closing], rfl, rfl⟩
        · split at read
          · next comma =>
            obtain ⟨⟨others, stop⟩, later, ⟨⟩⟩ := bind_eq_ok_iff.1 read
            exact .inr ⟨by rw [comma], others, later, rfl⟩
          · cases read
  · rintro ⟨kind, arg, ⟨offset, rest⟩, takes, first, ending⟩
    cases rest with
    | nil => simp [Cursor.peek?] at ending
    | cons b rest =>
      rcases ending with ⟨⟨⟩, rfl, rfl⟩ | ⟨⟨⟩, others, later, rfl⟩
      · exact readArgs_last takes first
      · exact readArgs_more takes first later

/-- What a word is read from: the bytes up to a comma or closing parenthesis. -/
theorem readWord_eq_ok_iff (separated : ∃ b, after.peek? = some b ∧ IsSeparator b) :
    readWord c = .ok (arg, after) ↔ ∃ word,
      c.upTo Expression.isPunctuation = (word, after) ∧ arg = .word word c.offset := by
  obtain ⟨b, found, separator⟩ := separated
  have other : b ≠ byte '(' := by
    rcases separator with rfl | rfl <;> decide
  unfold readWord
  cases cut : c.upTo Expression.isPunctuation with
  | mk word stop =>
  constructor
  · intro read
    dsimp only at read
    split at read
    · cases read
    · split at read
      · cases read
      · cases read
        exact ⟨word, rfl, rfl⟩
  · rintro ⟨_, ⟨⟩, rfl⟩
    simp only [found, if_neg other]

/-! ## Both readers -/

/-- The reader of expressions finds an argument of the given kind where that of fragments does. -/
def SameArg (s : Settings) (depth levels : Nat) : Prop :=
  ∀ {kind : ArgKind} {c after : Cursor} {arg : Arg}, Blankless c.rest →
    (∃ b, after.peek? = some b ∧ IsSeparator b) →
    (∀ word place, kind = .word → arg = .word word place → word ≠ []) →
    (readArg s levels kind c = .ok (arg, after) ↔ ∃ e,
      Expression.readOne s.limit (levels + 1) c = .ok (e, after) ∧ argOf s depth kind e = .ok arg)

theorem readWord_iff (blankless : Blankless c.rest)
    (separated : ∃ b, after.peek? = some b ∧ IsSeparator b)
    (solid : ∀ word place, arg = .word word place → word ≠ []) :
    readWord c = .ok (arg, after) ↔ ∃ e,
      Expression.readOne s.limit (levels + 1) c = .ok (e, after) ∧
        argOf s depth .word e = .ok arg := by
  obtain ⟨b, found, separator⟩ := id separated
  have plain : after.peek? ≠ some (byte '(') := by
    rw [found]
    rcases separator with rfl | rfl <;> decide
  rw [readWord_eq_ok_iff separated]
  constructor
  · rintro ⟨word, cut, rfl⟩
    refine ⟨.node word c.offset [], (Expression.readOne_eq_ok_iff blankless).2 ?_, rfl⟩
    exact ⟨word, after, [], cut, solid word _ rfl, if_neg plain, rfl⟩
  · rintro ⟨e, read, made⟩
    obtain ⟨word, stop, es, cut, -, listed, rfl⟩ := (Expression.readOne_eq_ok_iff blankless).1 read
    cases es with
    | cons e es => cases made
    | nil =>
      cases made
      unfold Expression.readArguments at listed
      split at listed
      · exact (Expression.ne_nil_of_readArgs listed rfl).elim
      · cases listed
        exact ⟨word, cut, rfl⟩

theorem ofExpressionAt_eq_ok_iff {word : Bytes} {offset : Nat} :
    ofExpressionAt s depth (.node word offset es) = .ok m ↔ depth < s.limit ∧
      ∃ letters name nameOffset head args core,
        splitName word offset = .ok (letters, name, nameOffset) ∧
        Head.ofName? name = some head ∧
        (head.shape.rest = none → es.length ≤ head.shape.fixed.length) ∧
        argsOf s depth head.shape 0 es = .ok args ∧
        build s head name nameOffset args = .ok core ∧
        applyLetters s.limit offset 0 letters core = .ok m := by
  rw [ofExpressionAt]
  constructor
  · intro found
    split at found
    · cases found
    · next shallow =>
      refine ⟨Int.not_le.1 shallow, ?_⟩
      obtain ⟨⟨letters, name, nameOffset⟩, cut, found⟩ := bind_eq_ok_iff.1 found
      dsimp only at found
      split at found
      · cases found
      · next head named =>
        split at found
        · cases found
        · next few =>
          obtain ⟨args, made, found⟩ := bind_eq_ok_iff.1 found
          obtain ⟨core, built, lettered⟩ := bind_eq_ok_iff.1 found
          refine ⟨letters, name, nameOffset, head, args, core, cut, named, fun fixed => ?_, made,
            built, lettered⟩
          rw [fixed] at few
          simpa using few
  · rintro ⟨shallow, letters, name, nameOffset, head, args, core, cut, named, few, made, built,
      lettered⟩
    have fits : ¬ (head.shape.rest.isNone = true ∧ es.length > head.shape.fixed.length) := by
      rintro ⟨fixed, many⟩
      have bound := few (Option.isNone_iff_eq_none.1 fixed)
      omega
    rw [if_neg (Int.not_le.2 shallow)]
    refine bind_eq_ok_iff.2 ⟨_, cut, ?_⟩
    simp only [named, if_neg fits]
    exact bind_eq_ok_iff.2 ⟨args, made, bind_eq_ok_iff.2 ⟨core, built, lettered⟩⟩

/-- Both readers find the same arguments, each of which is followed by a comma or the end. -/
theorem readArgs_iff (same : SameArg s (depth + 1) levels) (word : Bytes) {bound : Nat}
    (blankless : Blankless c.rest)
    (solid : ∀ i word place, shape.kind? (index + i) = some .word →
      args[i]? = some (.word word place) → word ≠ []) :
    readArgs (readArg s levels) name shape bound index c = .ok (args, last) ↔ ∃ es,
      Expression.readArgs (Expression.readOne s.limit (levels + 1)) word bound c = .ok (es, last) ∧
      (shape.rest = none → index + es.length ≤ shape.fixed.length) ∧
      argsOf s depth shape index es = .ok args := by
  induction bound generalizing c index args with
  | zero => simp [readArgs, Expression.readArgs, textError]
  | succ bound ih =>
    have kept {c : Cursor} (blankless : Blankless c.rest) (e : Expression) (after : Cursor)
        (read : Expression.readOne s.limit (levels + 1) c = .ok (e, after)) :
        Blankless after.rest := Expression.blankless_of_readOne blankless read
    rw [readArgs_eq_ok_iff]
    simp only [Expression.readArgs_eq_ok_iff (kept blankless)]
    constructor
    · rintro ⟨kind, arg, after, takes, first, ending⟩
      have one (separated : ∃ b, after.peek? = some b ∧ IsSeparator b)
          (head : args[0]? = some arg) := (same blankless separated fun word place due given =>
            solid 0 word place (by rw [Nat.add_zero, takes, due]) (by rw [head, given])).1 first
      have few := exists_kind?_iff.1 ⟨kind, takes⟩
      rcases ending with ⟨found, rfl, rfl⟩ | ⟨found, others, later, rfl⟩
      · obtain ⟨e, read, made⟩ := one ⟨_, found, .inr rfl⟩ rfl
        refine ⟨[e], ⟨e, after, read, .inl ⟨found, rfl, rfl⟩⟩, few, ?_⟩
        exact (argsOf_cons_eq_ok_iff takes).2 ⟨arg, [], made, rfl, rfl⟩
      · obtain ⟨e, read, made⟩ := one ⟨_, found, .inl rfl⟩ rfl
        have rest := Expression.blankless_next (kept blankless e after read) found (by decide)
        obtain ⟨es, readOthers, fits, madeOthers⟩ := (ih rest fun i word place due given =>
          solid (i + 1) word place (by rwa [← Nat.add_assoc, Nat.add_right_comm]) given).1 later
        refine ⟨e :: es, ⟨e, after, read, .inr ⟨found, es, readOthers, rfl⟩⟩, fun fixed => ?_,
          (argsOf_cons_eq_ok_iff takes).2 ⟨arg, others, made, madeOthers, rfl⟩⟩
        have bound := fits fixed
        rw [List.length_cons]
        omega
    · rintro ⟨es, ⟨e, after, read, ending⟩, fits, made⟩
      obtain ⟨es, rfl⟩ : ∃ others, es = e :: others := by
        rcases ending with ⟨-, rfl, -⟩ | ⟨-, others, -, rfl⟩
        · exact ⟨[], rfl⟩
        · exact ⟨others, rfl⟩
      rw [List.length_cons] at fits
      have within : shape.rest = none → index < shape.fixed.length := fun fixed => by
        have bound := fits fixed
        omega
      obtain ⟨kind, takes⟩ := exists_kind?_iff.2 within
      obtain ⟨arg, args, first, others, rfl⟩ := (argsOf_cons_eq_ok_iff takes).1 made
      have one (separated : ∃ b, after.peek? = some b ∧ IsSeparator b) :=
        (same blankless separated fun word place due given =>
          solid 0 word place (by rw [Nat.add_zero, takes, due]) (by rw [given]; rfl)).2
          ⟨e, read, first⟩
      rcases ending with ⟨found, ⟨⟩, rfl⟩ | ⟨found, others', readOthers, ⟨⟩⟩
      · cases others
        exact ⟨kind, arg, after, takes, one ⟨_, found, .inr rfl⟩, .inl ⟨found, rfl, rfl⟩⟩
      · have rest := Expression.blankless_next (kept blankless e after read) found (by decide)
        refine ⟨kind, arg, after, takes, one ⟨_, found, .inl rfl⟩, .inr ⟨found, args, ?_, rfl⟩⟩
        refine (ih rest fun i word place due given => solid (i + 1) word place
          (by rwa [← Nat.add_assoc, Nat.add_right_comm]) given).2 ⟨es, readOthers, ?_, others⟩
        intro fixed
        have bound := fits fixed
        omega

/-- Both readers find the same arguments after a name, or none at all. -/
theorem readArguments_iff (same : SameArg s (depth + 1) levels) (word : Bytes)
    (blankless : Blankless c.rest)
    (solid : ∀ i word place, shape.kind? i = some .word →
      args[i]? = some (.word word place) → word ≠ []) :
    readArguments s levels name shape c = .ok (args, last) ↔ ∃ es,
      Expression.readArguments s.limit (levels + 1) word c = .ok (es, last) ∧
      (shape.rest = none → es.length ≤ shape.fixed.length) ∧
      argsOf s depth shape 0 es = .ok args := by
  unfold readArguments Expression.readArguments
  split
  · next parenthesis =>
    have rest := Expression.blankless_next blankless parenthesis (by decide)
    rw [readArgs_iff same word rest (by simpa using solid)]
    simp
  · constructor
    · rintro ⟨⟩
      exact ⟨[], rfl, fun _ => Nat.zero_le _, rfl⟩
    · rintro ⟨es, ⟨⟩, -, ⟨⟩⟩
      rfl

/-- Both readers find the same fragment, up to the end of the text or to a comma or closing
parenthesis. -/
theorem readOne_iff (standard : s.readKey.Standard) (deep : s.limit = depth + levels)
    (blankless : Blankless c.rest) (ends : ∀ b, last.peek? = some b → IsSeparator b) :
    readOne s levels c = .ok (m, last) ↔ ∃ e,
      Expression.readOne s.limit (levels + 1) c = .ok (e, last) ∧
        ofExpressionAt s depth e = .ok m := by
  induction levels generalizing depth c m last with
  | zero =>
    constructor
    · rintro ⟨⟩
    · rintro ⟨⟨word, offset, es⟩, -, found⟩
      obtain ⟨shallow, -⟩ := ofExpressionAt_eq_ok_iff.1 found
      omega
  | succ levels ih =>
    have same : SameArg s (depth + 1) levels := by
      intro kind c after arg blankless separated solid
      cases kind with
      | word => exact readWord_iff blankless separated fun word place => solid word place rfl
      | fragment =>
        have ends : ∀ b, after.peek? = some b → IsSeparator b := by
          obtain ⟨b, found, separator⟩ := separated
          rintro d first
          rw [found] at first
          cases first
          exact separator
        have deeper : s.limit = (depth + 1 : Nat) + levels := by
          rw [deep]
          omega
        simp only [readArg, argOf, map_eq_ok_iff]
        constructor
        · rintro ⟨⟨m, after⟩, read, ⟨⟩⟩
          obtain ⟨e, read', found⟩ := (ih deeper blankless ends).1 read
          exact ⟨e, read', m, found, rfl⟩
        · rintro ⟨e, read', m, found, rfl⟩
          exact ⟨(m, after), (ih deeper blankless ends).2 ⟨e, read', found⟩, rfl⟩
    rw [readOne_eq_ok_iff]
    constructor
    · rintro ⟨⟨letters, name, nameOffset⟩, after, head, args, core, opened, named, read, built,
        lettered⟩
      have punctuated : ∀ b, after.peek? = some b → Expression.isPunctuation b = true := by
        intro b found
        unfold readArguments at read
        split at read
        · next parenthesis =>
          rw [found] at parenthesis
          cases parenthesis
          decide
        · cases read
          exact isPunctuation_of_isSeparator (ends b found)
      obtain rfl := Head.eq_of_ofName? named
      obtain ⟨word, cut, split⟩ := (readOpening_iff (isNameByte_of_applyLetters lettered)
        (fun b => head.isNameByte_of_mem_name) head.name_ne_nil punctuated).1 opened
      have rest := (Expression.blankless_of_upTo blankless cut).2
      obtain ⟨es, listed, few, made⟩ := (readArguments_iff same word rest fun _ _ _ due given =>
        ne_nil_of_build standard built due given).1 read
      refine ⟨.node word c.offset es, (Expression.readOne_eq_ok_iff blankless).2
        ⟨word, after, es, cut, ne_nil_of_splitName head.name_ne_nil split, listed, rfl⟩,
        ofExpressionAt_eq_ok_iff.2 ⟨by omega, ?_⟩⟩
      exact ⟨letters, _, nameOffset, head, args, core, split, named, few, made, built, lettered⟩
    · rintro ⟨e, read, found⟩
      obtain ⟨word, stop, es, cut, -, listed, rfl⟩ :=
        (Expression.readOne_eq_ok_iff blankless).1 read
      obtain ⟨-, letters, name, nameOffset, head, args, core, split, named, few, made, built,
        lettered⟩ := ofExpressionAt_eq_ok_iff.1 found
      have rest := (Expression.blankless_of_upTo blankless cut).2
      obtain rfl := Head.eq_of_ofName? named
      have opened := (readOpening_iff (isNameByte_of_applyLetters lettered)
        (fun b => head.isNameByte_of_mem_name) head.name_ne_nil (upTo_eq_iff.1 cut).2.2.2).2
        ⟨word, cut, split⟩
      refine ⟨_, stop, head, args, core, opened, named, ?_, built, lettered⟩
      exact (readArguments_iff same word rest fun _ _ _ due given =>
        ne_nil_of_build standard built due given).2 ⟨es, listed, few, made⟩

theorem read_eq_ok_iff {text : Bytes} : read s text = .ok m ↔ ∃ last,
    readOne s s.limit.toNat (.start text) = .ok (m, last) ∧ last.peek? = none := by
  unfold read
  constructor
  · intro found
    obtain ⟨⟨one, after⟩, first, found⟩ := bind_eq_ok_iff.1 found
    dsimp only at found
    split at found
    · next none =>
      cases found
      exact ⟨after, first, none⟩
    · cases found
  · rintro ⟨last, first, none⟩
    refine bind_eq_ok_iff.2 ⟨_, first, ?_⟩
    simp only [none]

end Fragment

theorem Expression.read_eq_ok_iff {limit : Int} {text : Bytes} {e : Expression}
    (blankless : Blankless text) : Expression.read limit text = .ok e ↔ ∃ last,
      readOne limit (limit + 1).toNat (.start text) = .ok (e, last) ∧ last.peek? = none := by
  have stays {e : Expression} {last : Cursor}
      (first : readOne limit (limit + 1).toNat (.start text) = .ok (e, last)) :
      last.skip isGap = last :=
    skip_eq_self fun b found =>
      (blankless_of_readOne blankless first).isGap_eq_false (List.mem_of_mem_head? found)
  unfold read
  constructor
  · intro found
    obtain ⟨⟨one, after⟩, first, found⟩ := bind_eq_ok_iff.1 found
    simp only [stays first] at found
    split at found
    · next none =>
      cases found
      exact ⟨after, first, none⟩
    · cases found
  · rintro ⟨last, first, none⟩
    refine bind_eq_ok_iff.2 ⟨_, first, ?_⟩
    simp only [stays first, none]

namespace Fragment

/-- A text without blanks is read as a fragment exactly if it is read as an expression that stands
for the fragment, whatever the limit and with any of the usual readers of keys. -/
theorem read_iff_ofExpression {s : Settings} (standard : s.readKey.Standard) {text : Bytes}
    (blankless : Blankless text) {m : Checked} :
    read s text = .ok m ↔
      ∃ e, Expression.read s.limit text = .ok e ∧ ofExpression s e = .ok m := by
  simp only [read_eq_ok_iff, Expression.read_eq_ok_iff blankless]
  by_cases negative : s.limit < 0
  · have none : s.limit.toNat = 0 ∧ (s.limit + 1).toNat = 0 := by omega
    simp [none.1, none.2, readOne, Expression.readOne]
  · have levels : s.limit = (0 : Nat) + s.limit.toNat ∧
        (s.limit + 1).toNat = s.limit.toNat + 1 := by
      omega
    rw [levels.2]
    constructor
    · rintro ⟨last, found, none⟩
      obtain ⟨e, read, made⟩ := (readOne_iff standard levels.1 blankless (by simp [none])).1 found
      exact ⟨e, ⟨last, read, none⟩, made⟩
    · rintro ⟨e, ⟨last, read, none⟩, made⟩
      exact ⟨last, (readOne_iff standard levels.1 blankless (by simp [none])).2 ⟨e, read, made⟩,
        none⟩

/-- A text with letters, arguments of both kinds and a fragment without arguments. -/
def colonText : Bytes := utf8 "andor(c:pk(A),tv:older(7),0)"

theorem read_iff_ofExpression_colons :
    Blankless colonText ∧ ∃ m e, read {} colonText = .ok m ∧
      m.text = utf8 "and_n(c:pk(A),tv:older(7))" ∧
      Expression.read ({} : Settings).limit colonText = .ok e ∧ ofExpression {} e = .ok m := by
  have blankless : Blankless colonText := by decide +kernel
  have shortened : (read {} colonText).toOption.map Checked.text
      = some (utf8 "and_n(c:pk(A),tv:older(7))") := by decide +kernel
  cases found : read {} colonText with
  | error e =>
    rw [found] at shortened
    cases shortened
  | ok m =>
    rw [found] at shortened
    obtain ⟨e, expression, made⟩ := (read_iff_ofExpression .text blankless).1 found
    exact ⟨blankless, m, e, rfl, Option.some.inj shortened, expression, made⟩

end Fragment

end LockScript
