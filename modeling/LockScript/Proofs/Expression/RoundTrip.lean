import LockScript.Proofs.Text.Nesting
import LockScript.Proofs.Text.Trimming
import LockScript.Proofs.Typing.Inversion

/-!
Expressions and their texts.

What is read from a text has names without punctuation, gaps or blanks around them, and is nested no
deeper than the limit (`sound_of_readOne`). Such an expression is read back from its own text: a name
ends where its arguments or what follows them begin, and there is nothing to skip (`readOne_text`).
The offsets are those in the text that is read, so that an expression is read back up to where its
names stood.
-/

namespace LockScript.Expression

/-! ## Names and nesting -/

/-- Induction in which all arguments satisfy the motive. -/
theorem induction {motive : Expression → Prop}
    (node : ∀ name offset args, (∀ e ∈ args, motive e) → motive (.node name offset args))
    (e : Expression) : motive e :=
  @Expression.rec motive (fun es => ∀ e ∈ es, motive e) node
    (fun _ h => absurd h List.not_mem_nil)
    (fun _ _ head tail _ h => (List.mem_cons.1 h).elim (fun eq => eq ▸ head) (tail _))
    e

mutual

/-- How deep the deepest argument lies, the expression itself lying at 0. -/
def depth : Expression → Nat
  | .node _ _ args => levelsOf args

/-- The number of levels that arguments take. -/
def levelsOf : List Expression → Nat
  | [] => 0
  | arg :: args => max (arg.depth + 1) (levelsOf args)

end

mutual

/-- The name of an expression and those of its arguments. -/
def names : Expression → List Bytes
  | .node name _ args => name :: namesOf args

/-- The names of several expressions. -/
def namesOf : List Expression → List Bytes
  | [] => []
  | arg :: args => arg.names ++ namesOf args

end

mutual

/-- The names and arguments of an expression without their places. -/
def unplaced : Expression → Expression
  | .node name _ args => .node name 0 (unplacedAll args)

/-- Several expressions without their places. -/
def unplacedAll : List Expression → List Expression
  | [] => []
  | arg :: args => arg.unplaced :: unplacedAll args

end

/-- A name as it is read: not empty, without punctuation or gaps, and without blanks around it. -/
structure IsName (name : Bytes) : Prop where
  some : name ≠ []
  plain : ∀ b ∈ name, isPunctuation b = false
  whole : ∀ b ∈ name, isGap b = false
  trimmed : Trimmed name

theorem levelsOf_le_iff {args : List Expression} {n : Nat} :
    levelsOf args ≤ n ↔ ∀ arg ∈ args, arg.depth < n := by
  induction args with
  | nil => simp [levelsOf]
  | cons arg args ih =>
    rw [levelsOf, Nat.max_le, ih, List.forall_mem_cons]
    rfl

theorem depth_lt_levelsOf {args : List Expression} {arg : Expression} (member : arg ∈ args) :
    arg.depth < levelsOf args :=
  levelsOf_le_iff.1 (Nat.le_refl _) arg member

theorem mem_namesOf_iff {args : List Expression} {name : Bytes} :
    name ∈ namesOf args ↔ ∃ arg ∈ args, name ∈ arg.names := by
  induction args with
  | nil => simp [namesOf]
  | cons arg args ih => rw [namesOf, List.mem_append, ih, List.exists_mem_cons_iff]

/-- What holds of all names holds of the first one and of those in each argument. -/
theorem forall_mem_names_iff {P : Bytes → Prop} {name : Bytes} {offset : Nat}
    {args : List Expression} : (∀ inner ∈ (node name offset args).names, P inner) ↔
      P name ∧ ∀ arg ∈ args, ∀ inner ∈ arg.names, P inner := by
  rw [names, List.forall_mem_cons]
  apply and_congr_right
  intro _
  constructor
  · intro all arg member inner among
    exact all inner (mem_namesOf_iff.2 ⟨arg, member, among⟩)
  · intro all inner member
    obtain ⟨arg, among, found⟩ := mem_namesOf_iff.1 member
    exact all arg among inner found

theorem unplacedAll_eq_map (es : List Expression) : unplacedAll es = es.map unplaced := by
  induction es with
  | nil => rfl
  | cons e es ih => rw [unplacedAll, ih, List.map_cons]

theorem textAfter_eq (arg : Expression) (args : List Expression) :
    arg.text ++ textAfter args = joinWith [byte ','] ((arg :: args).map text) := by
  induction args generalizing arg with
  | nil => exact List.append_nil _
  | cons next args ih =>
    rw [textAfter, ih]
    simp only [List.map_cons, joinWith_cons_cons, List.append_assoc, List.singleton_append]

/-- An expression is written as its name and its arguments in parentheses. -/
theorem text_node (name : Bytes) (offset : Nat) (args : List Expression) :
    (node name offset args).text = name ++ parenthesized (args.map text) := by
  cases args with
  | nil => exact (List.append_nil _).symm
  | cons arg args =>
    rw [text, textAfter_eq]
    rfl

/-- Visible characters of ASCII other than punctuation. -/
def isGraphic (b : UInt8) : Bool := 0x21 ≤ b && b ≤ 0x7E && !isPunctuation b

theorem isGraphic_cases {b : UInt8} (graphic : isGraphic b = true) : b < 0x80 ∧
    isPunctuation b = false ∧ isGap b = false ∧ isBlank (Char.ofNat b.toNat) = false := by
  have all : ∀ m : Fin 256, isGraphic (UInt8.ofNat m) = true → UInt8.ofNat m < 0x80 ∧
      isPunctuation (UInt8.ofNat m) = false ∧ isGap (UInt8.ofNat m) = false ∧
      isBlank (Char.ofNat (UInt8.ofNat m).toNat) = false := by decide +kernel
  simpa using all ⟨b.toNat, b.toNat_lt⟩ (by simpa using graphic)

/-- No blank is written with graphic characters. -/
theorem exists_mem_of_isBlank {c : Char} (blank : isBlank c = true) :
    ∃ b ∈ String.utf8EncodeChar c, isGraphic b = false := by
  obtain ⟨b, rest, bytes, -, first⟩ := firstGlyph_encode c
  refine ⟨b, by simp [bytes], ?_⟩
  rw [← Bool.not_eq_true]
  intro graphic
  obtain ⟨ascii, -, -, solid⟩ := isGraphic_cases graphic
  have found := first []
  rw [firstGlyph_one ascii] at found
  obtain ⟨rfl⟩ : Char.ofNat b.toNat = c := Glyph.char.inj (Prod.mk.inj found).1
  rw [blank] at solid
  cases solid

theorem isName_of_isGraphic {name : Bytes} (some : name ≠ [])
    (graphic : ∀ b ∈ name, isGraphic b = true) : IsName name where
  some := some
  plain b member := (isGraphic_cases (graphic b member)).2.1
  whole b member := (isGraphic_cases (graphic b member)).2.2.1
  trimmed := by
    have absent {c : Char} (blank : isBlank c = true) :
        ¬ String.utf8EncodeChar c ⊆ name := by
      obtain ⟨b, member, other⟩ := exists_mem_of_isBlank blank
      intro inside
      rw [graphic b (inside member)] at other
      cases other
    exact ⟨fun c blank begins => absent blank begins.subset,
      fun c blank ends => absent blank ends.subset⟩

/-! ## Steps of the reader -/

variable {limit : Int} {n : Nat} {c last : Cursor} {e : Expression} {es : List Expression}
  {name : Bytes}

theorem readName_eq_ok_iff_trim {start : Nat} {word : Bytes} {stop : Cursor} :
    readName start word stop = .ok name ↔
      trim word = name ∧ name ≠ [] ∧ ∀ b ∈ name, isGap b = false := by
  unfold readName
  dsimp only
  split
  · next empty => simp_all
  · next some =>
    split
    · next gap =>
      constructor
      · intro read
        cases read
      · intro ⟨same, _, whole⟩
        subst same
        obtain ⟨b, member, isGap⟩ := List.any_eq_true.1 gap
        rw [whole b member] at isGap
        cases isGap
    · next whole =>
      constructor
      · intro same
        cases same
        refine ⟨rfl, some, fun b member => ?_⟩
        rw [List.any_eq_true] at whole
        exact Bool.eq_false_iff.2 fun gap => whole ⟨b, member, gap⟩
      · intro ⟨same, _, _⟩
        rw [same]

/-- The arguments of a name, if it is followed by an opening parenthesis. -/
def readArguments (limit : Int) (levels : Nat) (name : Bytes) (c : Cursor) :
    Except Error (List Expression × Cursor) :=
  if c.peek? = some (byte '(') then
    readArgs (readOne limit levels) name (c.rest.length + 1) c.next
  else .ok ([], c)

/-- What one expression is read from: a word up to the punctuation, and the arguments. -/
theorem readOne_succ_eq_ok_iff :
    readOne limit (n + 1) c = .ok (e, last) ↔ ∃ word stop name args,
      c.upTo isPunctuation = (word, stop) ∧ readName c.offset word stop = .ok name ∧
      readArguments limit n name stop = .ok (args, last) ∧ e = .node name c.offset args := by
  rw [readOne]
  cases c.upTo isPunctuation with
  | mk word stop =>
  unfold readArguments
  dsimp only
  constructor
  · intro found
    obtain ⟨name, named, read⟩ := bind_eq_ok_iff.1 found
    clear found
    refine ⟨word, stop, name, ?_⟩
    split at read
    · next parenthesis =>
      obtain ⟨⟨args, after⟩, found, ⟨⟩⟩ := bind_eq_ok_iff.1 read
      exact ⟨args, rfl, named, (if_pos parenthesis).trans found, rfl⟩
    · next parenthesis =>
      cases read
      exact ⟨[], rfl, named, if_neg parenthesis, rfl⟩
  · intro ⟨_, _, name, args, cut, named, read, same⟩
    cases cut
    subst same
    refine bind_eq_ok_iff.2 ⟨name, named, ?_⟩
    split at read
    · next parenthesis =>
      rw [if_pos parenthesis]
      exact bind_eq_ok_iff.2 ⟨_, read, rfl⟩
    · next parenthesis =>
      cases read
      exact if_neg parenthesis

/-- What a list of arguments is read from: one of them, and then its end or the others. -/
theorem readArgs_succ_eq_ok_iff {readOne : Cursor → Except Error (Expression × Cursor)}
    {bound : Nat} :
    readArgs readOne name (bound + 1) c = .ok (es, last) ↔ ∃ e after,
      readOne c = .ok (e, after) ∧
        ((after.skip isGap).peek? = some (byte ')') ∧ es = [e] ∧ last = (after.skip isGap).next ∨
          (after.skip isGap).peek? = some (byte ',') ∧ ∃ others,
            readArgs readOne name bound (after.skip isGap).next = .ok (others, last) ∧
              es = e :: others) := by
  rw [readArgs]
  constructor
  · intro read
    obtain ⟨⟨e, after⟩, first, read⟩ := bind_eq_ok_iff.1 read
    refine ⟨e, after, first, ?_⟩
    dsimp only at read
    split at read
    · cases read
    · next b found =>
      rw [found]
      split at read
      · next comma =>
        obtain ⟨⟨others, stop⟩, later, ⟨⟩⟩ := bind_eq_ok_iff.1 read
        exact .inr ⟨by rw [comma], others, later, rfl⟩
      · split at read
        · next closing =>
          cases read
          exact .inl ⟨by rw [closing], rfl, rfl⟩
        · cases read
  · intro ⟨e, after, first, ending⟩
    refine bind_eq_ok_iff.2 ⟨_, first, ?_⟩
    dsimp only
    rcases ending with ⟨found, rfl, rfl⟩ | ⟨found, others, later, rfl⟩
    · rw [found]
      exact (if_neg (by decide)).trans (if_pos rfl)
    · rw [found]
      exact (if_pos rfl).trans (bind_eq_ok_iff.2 ⟨_, later, rfl⟩)

/-! ## What is read -/

/-- The arguments that are read are as one of them is. -/
theorem forall_mem_of_readArgs {readOne : Cursor → Except Error (Expression × Cursor)}
    {P : Expression → Prop} (each : ∀ {c e after}, readOne c = .ok (e, after) → P e) {bound : Nat}
    (read : readArgs readOne name bound c = .ok (es, last)) : ∀ e ∈ es, P e := by
  induction bound generalizing c es with
  | zero => cases read
  | succ bound ih =>
    obtain ⟨e, after, first, ending⟩ := readArgs_succ_eq_ok_iff.1 read
    rcases ending with ⟨-, rfl, -⟩ | ⟨-, others, later, rfl⟩
    · exact List.forall_mem_singleton.2 (each first)
    · exact List.forall_mem_cons.2 ⟨each first, ih later⟩

/-- A name is read without the blanks around it. -/
theorem isName_of_readName {start : Nat} {word : Bytes} {stop : Cursor}
    (plain : ∀ b ∈ word, isPunctuation b = false) (read : readName start word stop = .ok name) :
    IsName name := by
  obtain ⟨rfl, some, whole⟩ := readName_eq_ok_iff_trim.1 read
  exact ⟨some, fun b member => plain b ((trim_isInfix word).subset member), whole,
    trimmed_trim word⟩

/-- One expression is nested within the levels that are left, and its names are names. -/
theorem sound_of_readOne (read : readOne limit n c = .ok (e, last)) :
    e.depth < n ∧ ∀ name ∈ e.names, IsName name := by
  induction n generalizing c e last with
  | zero => cases read
  | succ n ih =>
    obtain ⟨word, stop, name, args, cut, named, listed, rfl⟩ := readOne_succ_eq_ok_iff.1 read
    have inside : ∀ arg ∈ args, arg.depth < n ∧ ∀ name ∈ arg.names, IsName name := by
      unfold readArguments at listed
      split at listed
      · exact forall_mem_of_readArgs ih listed
      · cases listed
        exact fun arg member => absurd member List.not_mem_nil
    constructor
    · apply Nat.lt_succ_of_le
      exact levelsOf_le_iff.2 fun arg member => (inside arg member).1
    · have own := isName_of_readName (upTo_eq_iff.1 cut).2.2.1 named
      exact forall_mem_names_iff.2 ⟨own, fun arg member => (inside arg member).2⟩

/-! ## What is written -/

theorem IsName.readName (isName : IsName name) (start : Nat) (stop : Cursor) :
    readName start name stop = .ok name :=
  readName_eq_ok_iff_trim.2 ⟨isName.trimmed.trim_eq, isName.some, isName.whole⟩

/-- A name is what loses nothing when blanks are taken off. -/
theorem isName_of_trim (some : name ≠ []) (trimmed : trim name = name)
    (inside : ∀ b ∈ name, isPunctuation b = false ∧ isGap b = false) : IsName name where
  some := some
  plain b member := (inside b member).1
  whole b member := (inside b member).2
  trimmed := trimmed ▸ trimmed_trim name

theorem isPunctuation_of_stops {rest : Bytes} (stops : Stops rest) :
    ∀ b, rest.head? = some b → isPunctuation b = true := by
  intro b first
  rcases stops b first with rfl | rfl <;> rfl

theorem length_le_textAfter (args : List Expression) : args.length ≤ (textAfter args).length := by
  induction args with
  | nil => exact Nat.zero_le _
  | cons arg args ih =>
    simp only [textAfter, List.length_cons, List.length_append]
    omega

/-- An expression of which `readOne` finds the names and arguments in its text, whatever may come
after that. -/
def ReadBy (readOne : Cursor → Except Error (Expression × Cursor)) (e : Expression) : Prop :=
  ∀ offset rest, Stops rest → ∃ found offset',
    readOne ⟨offset, e.text ++ rest⟩ = .ok (found, ⟨offset', rest⟩) ∧ found.unplaced = e.unplaced

/-- Arguments are found one by one up to the closing parenthesis. -/
theorem readArgs_text {readOne : Cursor → Except Error (Expression × Cursor)} {arg : Expression}
    {args : List Expression} (each : ∀ e ∈ arg :: args, ReadBy readOne e) {bound : Nat}
    (enough : args.length < bound) (offset : Nat) (rest : Bytes) :
    ∃ found offset', readArgs readOne name bound
        ⟨offset, arg.text ++ (textAfter args ++ byte ')' :: rest)⟩ = .ok (found, ⟨offset', rest⟩) ∧
      unplacedAll found = unplacedAll (arg :: args) := by
  cases bound with
  | zero => cases enough
  | succ bound =>
  induction args generalizing arg bound offset with
  | nil =>
    obtain ⟨found, offset', first, same⟩ :=
      each arg List.mem_cons_self offset _ (stops_closing rest)
    refine ⟨[found], offset' + 1, readArgs_succ_eq_ok_iff.2 ⟨found, _, first, .inl ?_⟩, ?_⟩
    · rw [skip_eq_self (by rintro b ⟨⟩; rfl)]
      exact ⟨rfl, rfl, rfl⟩
    · simp only [unplacedAll, same]
  | cons next args ih =>
    rw [textAfter, List.cons_append, List.append_assoc]
    obtain ⟨found, offset', first, same⟩ := each arg List.mem_cons_self offset _ (stops_comma _)
    cases bound with
    | zero => exact absurd (Nat.lt_of_succ_lt_succ enough) (Nat.not_lt_zero _)
    | succ bound =>
    obtain ⟨others, last, later, alike⟩ := ih (fun e member => each e (List.mem_cons_of_mem _ member))
      (offset' + 1) bound (Nat.lt_of_succ_lt_succ enough)
    refine ⟨found :: others, last, readArgs_succ_eq_ok_iff.2 ⟨found, _, first, .inr ?_⟩, ?_⟩
    · rw [skip_eq_self (by rintro b ⟨⟩; rfl)]
      exact ⟨rfl, others, later, rfl⟩
    · rw [unplacedAll, same, alike, ← unplacedAll]

/-- An expression that is not nested too deep, with names that are names, is found in its text. -/
theorem readOne_text (e : Expression) {n : Nat} (shallow : e.depth < n)
    (named : ∀ name ∈ e.names, IsName name) : ReadBy (readOne limit n) e := by
  induction e using induction generalizing n with
  | node name place args ih =>
    intro offset rest stops
    cases n with
    | zero => cases shallow
    | succ n =>
    obtain ⟨own, others⟩ := forall_mem_names_iff.1 named
    have each : ∀ arg ∈ args, ReadBy (readOne limit n) arg := by
      intro arg member
      apply ih arg member
      · exact levelsOf_le_iff.1 (Nat.le_of_lt_succ shallow) arg member
      · exact others arg member
    cases args with
    | nil =>
      have ends := isPunctuation_of_stops stops
      have cut := upTo_word offset own.plain ends
      have closed : rest.head? ≠ some (byte '(') := by
        intro first
        rcases stops _ first with same | same <;> cases same
      refine ⟨.node name offset [], _, readOne_succ_eq_ok_iff.2 ⟨_, _, _, _, cut, own.readName _ _,
        if_neg closed, rfl⟩, rfl⟩
    | cons arg args =>
      have cut : Cursor.upTo isPunctuation ⟨offset, (node name place (arg :: args)).text ++ rest⟩
          = (name, ⟨offset + name.length,
              byte '(' :: (arg.text ++ (textAfter args ++ byte ')' :: rest))⟩) := by
        rw [text, List.append_assoc, List.cons_append, List.append_assoc, List.append_assoc,
          List.singleton_append]
        exact upTo_word offset own.plain (by rintro b ⟨⟩; rfl)
      have enough : args.length
          < (byte '(' :: (arg.text ++ (textAfter args ++ byte ')' :: rest))).length + 1 := by
        have few := length_le_textAfter args
        simp only [List.length_cons, List.length_append]
        omega
      obtain ⟨found, last, read, same⟩ := readArgs_text each enough (offset + name.length + 1) rest
      refine ⟨.node name offset found, last, readOne_succ_eq_ok_iff.2 ⟨_, _, _, found, cut,
        own.readName _ _, (if_pos rfl).trans read, rfl⟩, ?_⟩
      rw [unplaced, unplaced, same]

/-! ## Whole texts -/

/-- What a text is read as is nested no deeper than the limit, and its names are names. -/
theorem sound_of_read {text : Bytes} (found : read limit text = .ok e) :
    (e.depth : Int) ≤ limit ∧ ∀ name ∈ e.names, IsName name := by
  obtain ⟨⟨first, after⟩, one, ended⟩ := bind_eq_ok_iff.1 found
  obtain ⟨shallow, named⟩ := sound_of_readOne one
  dsimp only at ended
  split at ended
  · cases ended
    exact ⟨by omega, named⟩
  · cases ended

/-- Such an expression is read back from its text. -/
theorem read_text (shallow : (e.depth : Int) ≤ limit) (named : ∀ name ∈ e.names, IsName name) :
    ∃ found, read limit e.text = .ok found ∧ found.unplaced = e.unplaced := by
  have levels : e.depth < (limit + 1).toNat := by omega
  obtain ⟨found, last, one, same⟩ := readOne_text e levels named 0 [] (by rintro b ⟨⟩)
  rw [List.append_nil] at one
  exact ⟨found, bind_eq_ok_iff.2 ⟨_, one, rfl⟩, same⟩

/-- What is read is nested no deeper than the limit and has names without punctuation, gaps or blanks
around them, and each such expression is read back from its text with its names and arguments. -/
theorem read_exact (limit : Int) :
    (∀ text e, read limit text = .ok e →
      (e.depth : Int) ≤ limit ∧ ∀ name ∈ e.names, IsName name) ∧
    ∀ e : Expression, (e.depth : Int) ≤ limit → (∀ name ∈ e.names, IsName name) →
      ∃ found, read limit e.text = .ok found ∧ found.unplaced = e.unplaced :=
  ⟨fun _ _ found => sound_of_read found, fun _ shallow named => read_text shallow named⟩

/-- A name with a blank inside, and an argument with blanks around it. -/
def padded : Bytes := utf8 " a\u00a0b (\tc\u2003)\n"

/-- The expression that is written with blanks in `padded`. -/
def unpadded : Expression := .node (utf8 "a\u00a0b") 0 [.node (utf8 "c") 0 []]

theorem read_exact_padded :
    (∃ e, read 1 padded = .ok e ∧ e.text = unpadded.text ∧ (e.depth : Int) ≤ 1 ∧
      ∀ name ∈ e.names, IsName name) ∧
    (∀ name ∈ unpadded.names, IsName name) ∧
    ∃ found, read 1 unpadded.text = .ok found ∧ found.unplaced = unpadded := by
  have written : (read 1 padded).toOption.map text = some unpadded.text := by decide +kernel
  have named : ∀ name ∈ unpadded.names, IsName name := by
    have all : ∀ name ∈ unpadded.names, name ≠ [] ∧ trim name = name ∧
        ∀ b ∈ name, isPunctuation b = false ∧ isGap b = false := by decide +kernel
    intro name member
    obtain ⟨some, trimmed, inside⟩ := all name member
    exact isName_of_trim some trimmed inside
  refine ⟨?_, named, (read_exact 1).2 unpadded (by decide) named⟩
  cases found : read 1 padded with
  | error e =>
    rw [found] at written
    cases written
  | ok e =>
    rw [found] at written
    exact ⟨e, rfl, Option.some.inj written, (read_exact 1).1 _ _ found⟩

end LockScript.Expression
