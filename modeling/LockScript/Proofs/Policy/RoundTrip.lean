import LockScript.Policy.Reader
import LockScript.Proofs.Policy.Expression

/-!
Concrete policies and their texts.

A policy is read in three steps: a weight is taken off a name, a head is read from the rest of the name
and the words after it, and parts are read from the other arguments (`ofExpression_node`). What is
read is readable, and its expression is nested no deeper than the one it was read from
(`readable_of_ofExpression`), whatever the spelling of numbers and hashes there. A readable policy is
found in its expression, wherever the names of that stand (`Readable.ofExpression`), and so it is in
its text.
-/

namespace LockScript.ConcretePolicy

variable {readKey : Key.Reader} {p : ConcretePolicy}

/-! ## Words and heads that are read -/

section Heads

variable {name text : Bytes} {offset start : Nat} {args : List Expression}

theorem word_eq_ok_iff {arg : Expression} :
    word arg = .ok (text, start) ↔ arg = .node text start [] := by
  obtain ⟨written, place, inner⟩ := arg
  rw [word]
  split
  · next empty => simp [empty]
  · next some => simp [some]

theorem onlyWord_eq_ok_iff :
    onlyWord name offset args = .ok (text, start) ↔ args = [.node text start []] := by
  unfold onlyWord
  split
  · rw [word_eq_ok_iff, List.cons.injEq, eq_self, and_true]
  · next several =>
    constructor
    · intro read
      cases read
    · intro one
      exact absurd one (several _)

theorem lockTime_eq_ok_iff {lock : UInt32} :
    lockTime name offset args = .ok lock ↔ ∃ text start n, args = [.node text start []] ∧
      Decimal.below? 32 text = some n ∧ n ≠ 0 ∧ lock = UInt32.ofNat n := by
  unfold lockTime
  rw [bind_eq_ok_iff]
  constructor
  · intro ⟨⟨text, start⟩, only, read⟩
    refine ⟨text, start, ?_⟩
    dsimp only at read
    split at read
    · cases read
    · cases read
    · next n some value =>
      cases read
      exact ⟨n, onlyWord_eq_ok_iff.1 only, value, some, rfl⟩
  · intro ⟨text, start, n, only, value, nonzero, same⟩
    refine ⟨(text, start), onlyWord_eq_ok_iff.2 only, ?_⟩
    dsimp only
    rw [value, same]
    split
    · contradiction
    · next zero => exact absurd (Option.some.inj zero) nonzero
    · next m _ found => rw [Option.some.inj found]

theorem image_eq_ok_iff {f : HashFunction} {c : Condition} :
    image f name offset args = .ok c ↔ ∃ text start data, args = [.node text start []] ∧
      Hex.decode text = .ok data ∧ data.length = f.width ∧ c = .hash f data := by
  unfold image
  rw [bind_eq_ok_iff]
  constructor
  · intro ⟨⟨text, start⟩, only, read⟩
    refine ⟨text, start, ?_⟩
    dsimp only at read
    split at read
    · next data decoded =>
      split at read
      · next size =>
        cases read
        exact ⟨data, onlyWord_eq_ok_iff.1 only, decoded, size, rfl⟩
      · cases read
    · cases read
  · intro ⟨text, start, data, only, decoded, size, same⟩
    refine ⟨(text, start), onlyWord_eq_ok_iff.2 only, ?_⟩
    dsimp only
    rw [decoded, same]
    exact if_pos size

theorem needed_eq_ok_iff {k : Int} :
    needed offset args = .ok k ↔ ∃ text start rest n, args = .node text start [] :: rest ∧
      Decimal.below? 31 text = some n ∧ n ≠ 0 ∧ n ≤ rest.length ∧ k = n := by
  unfold needed
  constructor
  · intro read
    split at read
    · next first rest =>
      dsimp only at read
      split at read
      · cases read
      · obtain ⟨⟨text, start⟩, leading, read⟩ := bind_eq_ok_iff.1 read
        rw [word_eq_ok_iff.1 leading]
        refine ⟨text, start, rest, ?_⟩
        dsimp only at read
        split at read
        · cases read
        · next n value =>
          split at read
          · cases read
          · split at read
            · cases read
            · cases read
              exact ⟨n, rfl, value, ‹_›, Nat.le_of_not_lt ‹_›, rfl⟩
    · cases read
  · intro ⟨text, start, rest, n, listed, value, nonzero, few, same⟩
    subst listed same
    have some : rest.length ≠ 0 := by omega
    dsimp only
    rw [if_neg some]
    refine bind_eq_ok_iff.2 ⟨(text, start), word_eq_ok_iff.2 rfl, ?_⟩
    dsimp only
    rw [value]
    exact (if_neg nonzero).trans (if_neg (Nat.not_lt.2 few))

theorem taking_eq_ok_iff {taken : Nat} {head head' : Head} :
    taking taken head name offset args = .ok head' ↔ args.length = taken ∧ head' = head := by
  unfold taking
  split
  · next size => simp [size, eq_comm]
  · next size => simp [size]

/-- The arguments that a head is read with: as many as it has words, or two, or a word before as many
as its threshold needs at least. -/
inductive Fits (readKey : Key.Reader) : Head → List Expression → Prop
  | condition {c : Condition} {args : List Expression} (own : c.Legible readKey)
    (size : args.length = c.words.length) : Fits readKey (.condition c) args
  | and {args : List Expression} (size : args.length = 2) : Fits readKey .and args
  | or {args : List Expression} (size : args.length = 2) : Fits readKey .or args
  | threshold {k : Nat} {first : Expression} {rest : List Expression} (some : k ≠ 0)
    (few : k ≤ rest.length) (small : k < 2 ^ 31) : Fits readKey (.threshold k) (first :: rest)

theorem ofNat_ne_zero {n : Nat} (value : Decimal.below? 32 text = some n) (nonzero : n ≠ 0) :
    UInt32.ofNat n ≠ 0 := by
  intro zero
  have same := congrArg UInt32.toNat zero
  rw [UInt32.toNat_ofNat_of_lt' (Decimal.below?_lt value)] at same
  exact nonzero same

theorem fits_lockTime {lock : UInt32} {c : Condition} (read : lockTime name offset args = .ok lock)
    (legible : lock ≠ 0 → c.Legible readKey) (size : c.words.length = 1) :
    Fits readKey (.condition c) args := by
  obtain ⟨text, start, n, rfl, value, nonzero, rfl⟩ := lockTime_eq_ok_iff.1 read
  exact .condition (legible (ofNat_ne_zero value nonzero)) size.symm

theorem fits_image {f : HashFunction} {c : Condition} (read : image f name offset args = .ok c) :
    Fits readKey (.condition c) args := by
  obtain ⟨text, start, data, rfl, -, size, rfl⟩ := image_eq_ok_iff.1 read
  exact .condition size rfl

theorem of_ite_eq_ok {α : Type} {P : Prop} [Decidable P] {x y : Except Error α} {a : α}
    (read : (if P then x else y) = .ok a) : x = .ok a ∨ y = .ok a := by
  by_cases holds : P
  · exact .inl ((if_pos holds).symm.trans read)
  · exact .inr ((if_neg holds).symm.trans read)

/-- Whatever head is read, its arguments fit. -/
theorem fits_of_headOf (standard : readKey.Standard) {head : Head}
    (read : headOf readKey name offset args = .ok head) : Fits readKey head args := by
  -- One case for each name, in the order in which they are tried.
  unfold headOf at read
  rcases of_ite_eq_ok read with read | read
  · cases read
  rcases of_ite_eq_ok read with read | read
  · obtain ⟨size, rfl⟩ := taking_eq_ok_iff.1 read
    exact .condition True.intro size
  rcases of_ite_eq_ok read with read | read
  · obtain ⟨size, rfl⟩ := taking_eq_ok_iff.1 read
    exact .condition True.intro size
  rcases of_ite_eq_ok read with read | read
  · obtain ⟨⟨text, start⟩, only, read⟩ := bind_eq_ok_iff.1 read
    dsimp only at read
    split at read
    · next key found =>
      cases read
      refine .condition ⟨(Key.legible_of_read standard found).found,
        Key.isName_of_read standard found⟩ ?_
      rw [onlyWord_eq_ok_iff.1 only]
      rfl
    · cases read
  rcases of_ite_eq_ok read with read | read
  · obtain ⟨lock, found, ⟨⟩⟩ := bind_eq_ok_iff.1 read
    exact fits_lockTime found id rfl
  rcases of_ite_eq_ok read with read | read
  · obtain ⟨lock, found, ⟨⟩⟩ := bind_eq_ok_iff.1 read
    exact fits_lockTime found id rfl
  rcases of_ite_eq_ok read with read | read
  · obtain ⟨c, found, ⟨⟩⟩ := bind_eq_ok_iff.1 read
    exact fits_image found
  rcases of_ite_eq_ok read with read | read
  · obtain ⟨c, found, ⟨⟩⟩ := bind_eq_ok_iff.1 read
    exact fits_image found
  rcases of_ite_eq_ok read with read | read
  · obtain ⟨c, found, ⟨⟩⟩ := bind_eq_ok_iff.1 read
    exact fits_image found
  rcases of_ite_eq_ok read with read | read
  · obtain ⟨c, found, ⟨⟩⟩ := bind_eq_ok_iff.1 read
    exact fits_image found
  rcases of_ite_eq_ok read with read | read
  · obtain ⟨size, rfl⟩ := taking_eq_ok_iff.1 read
    exact .and size
  rcases of_ite_eq_ok read with read | read
  · obtain ⟨size, rfl⟩ := taking_eq_ok_iff.1 read
    exact .or size
  rcases of_ite_eq_ok read with read | read
  · obtain ⟨k, found, ⟨⟩⟩ := bind_eq_ok_iff.1 read
    obtain ⟨text, start, rest, n, rfl, value, some, few, rfl⟩ := needed_eq_ok_iff.1 found
    exact .threshold some few (Decimal.below?_lt value)
  · cases read

/-- The first arguments are these words. -/
def Begins (words : List Bytes) (args : List Expression) : Prop :=
  (args.take words.length).map Expression.unplaced = words.map wordExpression

theorem Begins.exists_word {word : Bytes} {words : List Bytes}
    (begins : Begins (word :: words) args) : ∃ start rest, args = .node word start [] :: rest := by
  cases args with
  | nil => cases begins
  | cons arg rest =>
    obtain ⟨name, start, inner⟩ := arg
    have same : (Expression.node name start inner).unplaced = wordExpression word :=
      (List.cons.inj begins).1
    rw [Expression.unplaced, Expression.unplacedAll_eq_map, wordExpression] at same
    obtain ⟨rfl, -, empty⟩ := Expression.node.inj same
    rw [List.map_eq_nil_iff.1 empty]
    exact ⟨start, rest, rfl⟩

/-- A word that is the only argument. -/
theorem Begins.eq_singleton {word : Bytes} (begins : Begins [word] args) (size : args.length = 1) :
    ∃ start, args = [.node word start []] := by
  obtain ⟨start, rest, rfl⟩ := begins.exists_word
  rw [List.eq_nil_of_length_eq_zero (Nat.succ.inj size)]
  exact ⟨start, rfl⟩

theorem contains_spelling {s : String} (known : s ∈ spellings) :
    ¬ (utf8 s).contains (byte '@') = true := by
  rw [List.contains_iff_mem]
  exact fun member => ((isGraphic_spelling s known).2 _ member).2 rfl

theorem lockTime_of_words {lock : UInt32} (some : lock ≠ 0) :
    lockTime name offset [.node (Decimal.ofNat lock.toNat) start []] = .ok lock := by
  refine lockTime_eq_ok_iff.2 ⟨_, start, lock.toNat, rfl, Decimal.below?_ofNat lock.toNat_lt, ?_, ?_⟩
  · intro zero
    exact some (UInt32.toNat_inj.1 zero)
  · rw [UInt32.ofNat_toNat]

theorem image_of_words {f : HashFunction} {data : Bytes} (size : data.length = f.width) :
    image f name offset [.node (Hex.encode data) start []] = .ok (.hash f data) :=
  image_eq_ok_iff.2 ⟨_, start, data, rfl, Hex.decode_encode data, size, rfl⟩

theorem utf8_ne {s t : String} (differ : s ≠ t) : ¬ utf8 s = utf8 t :=
  fun same => differ (utf8_inj.1 same)

/-- A condition is read from its name and its words. -/
theorem headOf_condition {c : Condition} (own : c.Legible readKey)
    (size : args.length = c.words.length) (begins : Begins c.words args) :
    headOf readKey (utf8 c.name) offset args = .ok (.condition c) := by
  rw [headOf, if_neg (contains_spelling (c.name_mem_spellings own.known))]
  cases c with
  | unsatisfiable => exact (if_pos rfl).trans (taking_eq_ok_iff.2 ⟨size, rfl⟩)
  | trivial =>
    rewrite [show Condition.trivial.name = "TRIVIAL" from rfl, if_neg (utf8_ne (by decide)),
      if_pos rfl]
    exact taking_eq_ok_iff.2 ⟨size, rfl⟩
  | key signer =>
    obtain ⟨start, rfl⟩ := begins.eq_singleton size
    rewrite [show (Condition.key signer).name = "pk" from rfl]
    repeat rewrite [if_neg (utf8_ne (by decide))]
    rewrite [if_pos rfl]
    refine bind_eq_ok_iff.2 ⟨_, onlyWord_eq_ok_iff.2 rfl, ?_⟩
    dsimp only
    rw [own.1]
  | after lock =>
    obtain ⟨start, rfl⟩ := begins.eq_singleton size
    rewrite [show (Condition.after lock).name = "after" from rfl]
    repeat rewrite [if_neg (utf8_ne (by decide))]
    rewrite [if_pos rfl, lockTime_of_words own]
    rfl
  | older lock =>
    obtain ⟨start, rfl⟩ := begins.eq_singleton size
    rewrite [show (Condition.older lock).name = "older" from rfl]
    repeat rewrite [if_neg (utf8_ne (by decide))]
    rewrite [if_pos rfl, lockTime_of_words own]
    rfl
  | hash f image =>
    obtain ⟨start, rfl⟩ := begins.eq_singleton size
    rewrite [show (Condition.hash f image).name = f.name from rfl]
    cases f
    all_goals
      rewrite [HashFunction.name]
      repeat rewrite [if_neg (utf8_ne (by decide))]
      rewrite [if_pos rfl, image_of_words own]
      rfl
  | keyHash committed => cases own
  | other kind => cases own

/-- A head is read from its name and its words. -/
theorem Fits.headOf {head : Head} (fits : Fits readKey head args)
    (begins : Begins head.words args) : headOf readKey head.name offset args = .ok head := by
  cases fits with
  | condition own size => exact headOf_condition own size begins
  | and size =>
    rewrite [ConcretePolicy.headOf, Head.name, if_neg (contains_spelling (by decide))]
    repeat rewrite [if_neg (utf8_ne (by decide))]
    rewrite [if_pos rfl]
    exact taking_eq_ok_iff.2 ⟨size, rfl⟩
  | or size =>
    rewrite [ConcretePolicy.headOf, Head.name, if_neg (contains_spelling (by decide))]
    repeat rewrite [if_neg (utf8_ne (by decide))]
    rewrite [if_pos rfl]
    exact taking_eq_ok_iff.2 ⟨size, rfl⟩
  | @threshold k first rest some few small =>
    obtain ⟨start, others, same⟩ := begins.exists_word
    have found : needed offset (first :: rest) = .ok (k : Int) := by
      obtain ⟨rfl, -⟩ := List.cons.inj same
      exact needed_eq_ok_iff.2 ⟨_, start, rest, k, rfl, Decimal.below?_ofNat small, some, few, rfl⟩
    rewrite [ConcretePolicy.headOf, Head.name, if_neg (contains_spelling (by decide))]
    repeat rewrite [if_neg (utf8_ne (by decide))]
    rewrite [if_pos rfl, found]
    rfl

end Heads

/-! ## Weights -/

section Weights

variable {written name : Bytes} {start offset : Nat} {weight : UInt32}

/-- The weight that is taken off a name, if it is that of a branch. -/
def taken (isBranch : Bool) (written : Bytes) (start : Nat) : Except Error (UInt32 × Bytes × Nat) :=
  if isBranch then takeWeight written start else .ok (1, written, start)

theorem ne_zero_of_taken {isBranch : Bool}
    (read : taken isBranch written start = .ok (weight, name, offset)) : weight ≠ 0 := by
  unfold taken takeWeight at read
  split at read
  · split at read
    · cases read
      decide
    · split at read
      · cases read
      · cases read
      · next n some value =>
        cases read
        exact ofNat_ne_zero value some
  · cases read
    decide

/-- A name is found after its weight. -/
theorem takeWeight_weighted {s : String} (known : s ∈ spellings) (some : weight ≠ 0) :
    ∃ offset, takeWeight (weighted weight (utf8 s)) start = .ok (weight, utf8 s, offset) := by
  have inside : ∀ b ∈ utf8 s, decide (b = byte '@') = false :=
    fun b member => decide_eq_false ((isGraphic_spelling s known).2 b member).2
  unfold weighted
  split
  · next one =>
    have cut := @splitBefore_word (· = byte '@') _ [] inside (by simp)
    rw [List.append_nil] at cut
    rw [takeWeight, cut, one]
    exact ⟨start, rfl⟩
  · have digits : ∀ b ∈ Decimal.ofNat weight.toNat, decide (b = byte '@') = false := by
      intro b member
      have digit := Decimal.isDigit_of_mem_ofNat member
      rw [decide_eq_false_iff_not]
      intro same
      rw [same] at digit
      cases digit
    have cut := @splitBefore_word (· = byte '@') _ (byte '@' :: utf8 s) digits (by simp)
    have value := Decimal.below?_ofNat weight.toNat_lt
    rw [takeWeight, cut]
    dsimp only
    rw [value]
    split
    · contradiction
    · next zero => exact absurd (UInt32.toNat_inj.1 (Option.some.inj zero)) some
    · next n _ found =>
      rw [← Option.some.inj found, UInt32.ofNat_toNat]
      exact ⟨_, rfl⟩

theorem taken_weighted {s : String} (known : s ∈ spellings) (some : weight ≠ 0) {isBranch : Bool}
    (own : isBranch = true ∨ weight = 1) :
    ∃ offset, taken isBranch (weighted weight (utf8 s)) start = .ok (weight, utf8 s, offset) := by
  cases isBranch with
  | true => exact takeWeight_weighted known some
  | false =>
    have one : weight = 1 := own.resolve_left Bool.false_ne_true
    rw [one, weighted_one]
    exact ⟨start, rfl⟩

end Weights

/-! ## Policies that are read -/

/-- What a head makes of its arguments. -/
def composed (readKey : Key.Reader) (args : List Expression) :
    Head → Except Error ConcretePolicy
  | .condition c => .ok (.node (.condition c) [] [])
  | .and => (ofExpressions readKey false args).map fun ps => .node .and (ps.map (·.2)) []
  | .or => (ofExpressions readKey true args).map fun branches => .node .or [] branches
  | .threshold k =>
    (ofExpressions readKey false args.tail).map fun ps => .node (.threshold k) (ps.map (·.2)) []

variable {isBranch : Bool} {weight : UInt32}

/-- An expression is read in three steps: a weight is taken off its name, a head is read from the name
that is left, and the head makes a policy of the arguments. -/
theorem ofExpression_node (written : Bytes) (start : Nat) (args : List Expression) :
    ofExpression readKey isBranch (.node written start args)
      = (taken isBranch written start).bind fun t =>
          (headOf readKey t.2.1 t.2.2 args).bind fun head =>
            (composed readKey args head).map (t.1, ·) := by
  have joined {α β : Type} {c : Prop} [Decidable c] (x y : Except Error α) (f : α → Except Error β) :
      (if c then x.bind f else y.bind f) = (if c then x else y).bind f := by
    split <;> rfl
  rw [ofExpression]
  refine (joined _ _ _).trans (congrArg (Except.bind _) (funext fun t => ?_))
  obtain ⟨weight, name, offset⟩ := t
  refine congrArg (Except.bind _) (funext fun head => ?_)
  cases head with
  | condition c => rfl
  | and =>
    simp only [composed]
    cases ofExpressions readKey false args <;> rfl
  | or =>
    simp only [composed]
    cases ofExpressions readKey true args <;> rfl
  | threshold k =>
    cases args with
    | nil => rfl
    | cons first rest =>
      simp only [composed, List.tail_cons]
      cases ofExpressions readKey false rest <;> rfl

theorem ofExpression_eq_ok_iff {written : Bytes} {start : Nat} {args : List Expression} :
    ofExpression readKey isBranch (.node written start args) = .ok (weight, p) ↔
      ∃ name offset head, taken isBranch written start = .ok (weight, name, offset) ∧
        headOf readKey name offset args = .ok head ∧ composed readKey args head = .ok p := by
  rw [ofExpression_node]
  constructor
  · intro made
    obtain ⟨⟨w, name, offset⟩, first, made⟩ := bind_eq_ok_iff.1 made
    obtain ⟨head, read, made⟩ := bind_eq_ok_iff.1 made
    obtain ⟨q, made, same⟩ := map_eq_ok_iff.1 made
    cases same
    exact ⟨name, offset, head, first, read, made⟩
  · intro ⟨name, offset, head, first, read, made⟩
    exact bind_eq_ok_iff.2 ⟨_, first, bind_eq_ok_iff.2 ⟨head, read, map_eq_ok_iff.2 ⟨p, made, rfl⟩⟩⟩

theorem ofExpressions_eq_ok_iff {es : List Expression} {ps : List (UInt32 × ConcretePolicy)} :
    ofExpressions readKey isBranch es = .ok ps ↔
      List.Forall₂ (fun e p => ofExpression readKey isBranch e = .ok p) es ps := by
  induction es generalizing ps with
  | nil =>
    rw [ofExpressions, List.forall₂_nil_left_iff]
    simp [eq_comm]
  | cons e es ih =>
    rw [ofExpressions, List.forall₂_cons_left_iff]
    constructor
    · intro made
      obtain ⟨first, read, made⟩ := bind_eq_ok_iff.1 made
      obtain ⟨others, later, made⟩ := bind_eq_ok_iff.1 made
      cases made
      exact ⟨first, others, read, ih.1 later, rfl⟩
    · intro ⟨first, others, read, later, same⟩
      subst same
      exact bind_eq_ok_iff.2 ⟨first, read, bind_eq_ok_iff.2 ⟨others, ih.2 later, rfl⟩⟩

/-- Each policy that is read stands for one of the expressions. -/
theorem exists_of_ofExpressions {es : List Expression} {ps : List (UInt32 × ConcretePolicy)}
    (made : ofExpressions readKey isBranch es = .ok ps) {q : UInt32 × ConcretePolicy}
    (member : q ∈ ps) : ∃ e ∈ es, ofExpression readKey isBranch e = .ok q := by
  induction ofExpressions_eq_ok_iff.1 made with
  | nil => cases member
  | cons first later ih =>
    rcases List.mem_cons.1 member with rfl | inside
    · exact ⟨_, List.mem_cons_self, first⟩
    · obtain ⟨e, among, read⟩ := ih (ofExpressions_eq_ok_iff.2 later) inside
      exact ⟨e, List.mem_cons_of_mem _ among, read⟩

/-- Words lie no deeper than arguments do, if there are some wherever there are words. -/
theorem depth_lt_of_words {words : List Bytes} {args : List Expression}
    (size : words ≠ [] → args ≠ []) :
    ∀ e ∈ words.map wordExpression, e.depth < Expression.levelsOf args := by
  intro e member
  obtain ⟨word, among, rfl⟩ := List.mem_map.1 member
  obtain ⟨arg, inside⟩ := List.exists_mem_of_ne_nil args (size (List.ne_nil_of_mem among))
  exact Nat.lt_of_le_of_lt (Nat.zero_le _) (Expression.depth_lt_levelsOf inside)

/-- What an expression is read as is readable, has a weight other than zero, and is written with no
more levels than the expression. -/
theorem readable_of_ofExpression (standard : readKey.Standard) {e : Expression}
    (made : ofExpression readKey isBranch e = .ok (weight, p)) :
    weight ≠ 0 ∧ Readable readKey p ∧ ∀ v, (p.expression v).depth ≤ e.depth := by
  induction e using Expression.induction generalizing isBranch weight p with
  | node written start args ih =>
  obtain ⟨name, offset, head, first, read, made⟩ := ofExpression_eq_ok_iff.1 made
  refine ⟨ne_zero_of_taken first, ?_⟩
  -- The parts are read from arguments, which lie one level deeper.
  have part {isBranch : Bool} {es : List Expression} {ps : List (UInt32 × ConcretePolicy)}
      (among : es ⊆ args) (found : ofExpressions readKey isBranch es = .ok ps) :
      ∀ q ∈ ps, q.1 ≠ 0 ∧ Readable readKey q.2 ∧
        ∀ v, (q.2.expression v).depth < Expression.levelsOf args := by
    intro q member
    obtain ⟨e, inside, read⟩ := exists_of_ofExpressions found member
    obtain ⟨weight, readable, shallow⟩ := ih e (among inside) read
    exact ⟨weight, readable, fun v =>
      Nat.lt_of_le_of_lt (shallow v) (Expression.depth_lt_levelsOf (among inside))⟩
  cases fits_of_headOf standard read with
  | @condition c _ own size =>
    cases made
    refine ⟨.condition own, fun v => Expression.levelsOf_le_iff.2 ?_⟩
    simp only [expressionsOf, branchExpressionsOf, List.append_nil, Head.words]
    apply depth_lt_of_words
    intro some empty
    rw [empty] at size
    exact some (List.eq_nil_of_length_eq_zero size.symm)
  | and size =>
    obtain ⟨ps, found, rfl⟩ := map_eq_ok_iff.1 made
    have count := (ofExpressions_eq_ok_iff.1 found).length_eq
    obtain ⟨x, y, rfl⟩ := List.length_eq_two.1 (count.symm.trans size)
    obtain ⟨⟨-, first, shallow⟩, ⟨-, second, shallow'⟩⟩ :=
      forall_mem_pair.1 (part (List.Subset.refl _) found)
    refine ⟨.and first second, fun v => Expression.levelsOf_le_iff.2 ?_⟩
    exact forall_mem_pair.2 ⟨shallow 1, shallow' 1⟩
  | or size =>
    obtain ⟨ps, found, rfl⟩ := map_eq_ok_iff.1 made
    have count := (ofExpressions_eq_ok_iff.1 found).length_eq
    obtain ⟨⟨v, x⟩, ⟨w, y⟩, rfl⟩ := List.length_eq_two.1 (count.symm.trans size)
    obtain ⟨⟨some, first, shallow⟩, ⟨some', second, shallow'⟩⟩ :=
      forall_mem_pair.1 (part (List.Subset.refl _) found)
    refine ⟨.or some some' first second, fun _ => Expression.levelsOf_le_iff.2 ?_⟩
    exact forall_mem_pair.2 ⟨shallow v, shallow' w⟩
  | @threshold k _ rest some few small =>
    obtain ⟨ps, found, rfl⟩ := map_eq_ok_iff.1 made
    have count : rest.length = ps.length := (ofExpressions_eq_ok_iff.1 found).length_eq
    have parts := part (List.subset_cons_self _ _) found
    refine ⟨.threshold some (by rwa [List.length_map, ← count]) small ?_,
      fun v => Expression.levelsOf_le_iff.2 ?_⟩
    · intro p member
      obtain ⟨q, among, rfl⟩ := List.mem_map.1 member
      exact (parts q among).2.1
    · rw [branchExpressionsOf, List.append_nil, expressionsOf_eq_map]
      refine List.forall_mem_append.2 ⟨depth_lt_of_words fun _ => List.cons_ne_nil _ _, ?_⟩
      intro e member
      obtain ⟨p, inside, rfl⟩ := List.mem_map.1 member
      obtain ⟨q, among, rfl⟩ := List.mem_map.1 inside
      exact (parts q among).2.2 1

/-! ## Policies that are written -/

/-- The arguments of an expression that has the names of a policy's. -/
theorem exists_args {head : Head} {operands : List ConcretePolicy}
    {branches : List (UInt32 × ConcretePolicy)} {e : Expression}
    (same : e.unplaced = ((node head operands branches).expression weight).unplaced) :
    ∃ start args, e = .node (weighted weight head.name) start args ∧
      args.map Expression.unplaced = head.words.map wordExpression
        ++ (expressionsOf operands ++ branchExpressionsOf branches).map Expression.unplaced := by
  obtain ⟨written, start, args⟩ := e
  rw [expression, Expression.unplaced, Expression.unplaced] at same
  obtain ⟨rfl, -, inner⟩ := Expression.node.inj same
  refine ⟨start, args, rfl, ?_⟩
  rw [← Expression.unplacedAll_eq_map, inner, Expression.unplacedAll_eq_map, List.map_append,
    List.map_map]
  rfl

theorem begins_of_map_unplaced {words : List Bytes} {args others : List Expression}
    (same : args.map Expression.unplaced = words.map wordExpression ++ others) :
    Begins words args := by
  rw [Begins, List.map_take, same, List.take_append_of_le_length (by simp)]
  exact List.take_of_length_le (by simp)

/-- A policy is found if its head is read from its name and its parts are found. -/
theorem ofExpression_of_fits {head : Head} {s : String} (spelled : head.name = utf8 s)
    (known : s ∈ spellings) (some : weight ≠ 0) (own : isBranch = true ∨ weight = 1) {start : Nat}
    {args : List Expression} (fits : Fits readKey head args) (begins : Begins head.words args)
    (made : composed readKey args head = .ok p) :
    ofExpression readKey isBranch (.node (weighted weight head.name) start args)
      = .ok (weight, p) := by
  rw [spelled]
  have weigh : ∃ offset, taken isBranch (weighted weight (utf8 s)) start = _ :=
    taken_weighted known some own
  obtain ⟨offset, first⟩ := weigh
  refine ofExpression_eq_ok_iff.2 ⟨_, offset, head, first, ?_, made⟩
  rw [← spelled]
  exact fits.headOf begins

/-- Several policies are found if each of them is. -/
theorem ofExpressions_of_each {es : List Expression} {qs : List (UInt32 × ConcretePolicy)}
    (each : ∀ q ∈ qs, ∀ e : Expression, e.unplaced = (q.2.expression q.1).unplaced →
      ofExpression readKey isBranch e = .ok q)
    (same : es.map Expression.unplaced = qs.map fun q => (q.2.expression q.1).unplaced) :
    ofExpressions readKey isBranch es = .ok qs := by
  rw [ofExpressions_eq_ok_iff]
  induction qs generalizing es with
  | nil =>
    rw [List.map_eq_nil_iff.1 same]
    exact .nil
  | cons q qs ih =>
    obtain ⟨e, rest, rfl, first, later⟩ := List.map_eq_cons_iff.1 same
    obtain ⟨found, others⟩ := List.forall_mem_cons.1 each
    exact .cons (found e first) (ih others later)

/-- A readable policy is found in its expression, wherever the names of that stand. -/
theorem Readable.ofExpression (readable : Readable readKey p) (some : weight ≠ 0)
    (own : isBranch = true ∨ weight = 1) {e : Expression}
    (same : e.unplaced = (p.expression weight).unplaced) :
    ofExpression readKey isBranch e = .ok (weight, p) := by
  have one : (1 : UInt32) ≠ 0 := by decide
  induction readable generalizing isBranch weight e with
  | @condition c legible =>
    obtain ⟨start, args, rfl, words⟩ := exists_args same
    have size : args.length = c.words.length := by
      simpa [expressionsOf, branchExpressionsOf, Head.words] using congrArg List.length words
    exact ofExpression_of_fits rfl (c.name_mem_spellings legible.known) some own
      (.condition legible size) (begins_of_map_unplaced words) rfl
  | @and x y first second ih ih' =>
    obtain ⟨start, args, rfl, parts⟩ := exists_args same
    have found : ofExpressions readKey false args = .ok [(1, x), (1, y)] := by
      refine ofExpressions_of_each (forall_mem_pair.2 ⟨?_, ?_⟩) parts
      · exact fun e alike => ih one (.inr rfl) alike
      · exact fun e alike => ih' one (.inr rfl) alike
    have size := (ofExpressions_eq_ok_iff.1 found).length_eq
    exact ofExpression_of_fits rfl (by decide) some own (.and size) (begins_of_map_unplaced parts)
      (map_eq_ok_iff.2 ⟨_, found, rfl⟩)
  | @or v w x y some' some'' first second ih ih' =>
    obtain ⟨start, args, rfl, parts⟩ := exists_args same
    have found : ofExpressions readKey true args = .ok [(v, x), (w, y)] := by
      refine ofExpressions_of_each (forall_mem_pair.2 ⟨?_, ?_⟩) parts
      · exact fun e alike => ih some' (.inl rfl) alike
      · exact fun e alike => ih' some'' (.inl rfl) alike
    have size := (ofExpressions_eq_ok_iff.1 found).length_eq
    exact ofExpression_of_fits rfl (by decide) some own (.or size) (begins_of_map_unplaced parts)
      (map_eq_ok_iff.2 ⟨_, found, rfl⟩)
  | @threshold k operands reached few small each ih =>
    obtain ⟨start, args, rfl, parts⟩ := exists_args same
    obtain ⟨first, rest, rfl, -, later⟩ := List.map_eq_cons_iff.1 parts
    have found : ofExpressions readKey false rest = .ok (operands.map (1, ·)) := by
      apply ofExpressions_of_each
      · intro q member e alike
        obtain ⟨p, among, rfl⟩ := List.mem_map.1 member
        exact ih p among one (.inr rfl) alike
      · rw [branchExpressionsOf, List.append_nil, expressionsOf_eq_map, List.map_map] at later
        rw [List.map_map]
        exact later
    have size : rest.length = operands.length := by
      simpa using (ofExpressions_eq_ok_iff.1 found).length_eq
    refine ofExpression_of_fits rfl (by decide) some own
      (.threshold reached (by rwa [size]) small) (begins_of_map_unplaced parts)
      (map_eq_ok_iff.2 ⟨_, found, ?_⟩)
    rw [List.map_map, show (fun q : UInt32 × ConcretePolicy => q.2) ∘ (1, ·) = id from rfl,
      List.map_id]

/-- What is read from a text is read again from its own text, by the same reader of keys and at the
same limit: as the same policy, with its weights, thresholds, lock times, hashes and keys. -/
theorem read_again (standard : readKey.Standard) {limit : Int} {text : Bytes}
    (found : read readKey limit text = .ok p) : read readKey limit p.text = .ok p := by
  obtain ⟨e, scanned, rest⟩ := bind_eq_ok_iff.1 found
  obtain ⟨⟨weight, q⟩, made, same⟩ := bind_eq_ok_iff.1 rest
  clear found rest
  cases same
  have parsed : Expression.read limit text = .ok e := by
    cases outcome : Expression.read limit text with
    | error reason =>
      rw [outcome] at scanned
      cases scanned
    | ok other =>
      rw [outcome] at scanned
      cases scanned
      rfl
  obtain ⟨-, readable, shallow⟩ := readable_of_ofExpression standard made
  have within : ((q.expression 1).depth : Int) ≤ limit :=
    Int.le_trans (Int.ofNat_le.2 (shallow 1)) (Expression.sound_of_read parsed).1
  obtain ⟨again, reread, alike⟩ := Expression.read_text within (readable.isName_expression 1)
  rw [readable.text_expression, weighted_one] at reread
  have remade : ofExpression readKey false again = .ok (1, q) :=
    readable.ofExpression (by decide) (.inr rfl) alike
  refine bind_eq_ok_iff.2 ⟨again, ?_, bind_eq_ok_iff.2 ⟨_, remade, rfl⟩⟩
  rw [reread]
  rfl

/-- Weights, numbers and a hash that are not spelled as they are written, with gaps between them. -/
def looselySpelled : Bytes :=
  utf8 "or( 009@and(pk( A ),older(010)), 1@thresh(02 ,pk(B),TRIVIAL,
    ripemd160(000102030405060708090A0B0C0D0E0F10111213)) )"

/-- The same as it is written. -/
def tightlySpelled : Bytes :=
  utf8 "or(9@and(pk(A),older(10)),thresh(2,pk(B),TRIVIAL,"
    ++ utf8 "ripemd160(000102030405060708090a0b0c0d0e0f10111213)))"

theorem read_again_looselySpelled : ∃ p, read Key.ofText 3 looselySpelled = .ok p ∧
    p.text = tightlySpelled ∧ read Key.ofText 3 p.text = .ok p := by
  have written : (read Key.ofText 3 looselySpelled).toOption.map text = some tightlySpelled := by
    decide +kernel
  cases found : read Key.ofText 3 looselySpelled with
  | error e =>
    rw [found] at written
    cases written
  | ok p =>
    rw [found] at written
    exact ⟨p, rfl, Option.some.inj written, read_again .text found⟩

end LockScript.ConcretePolicy
