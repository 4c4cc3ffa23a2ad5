import LockScript.Proofs.Decoder.Soundness
import LockScript.Proofs.Fragment.Failure

/-!
The stacks of the decoder.

Each expectation takes some of the fragments found, if not at once then by way of the expectations
that take its place, and leaves one. The stacks are balanced if the expectations, one after the
other, find what they take and leave one fragment alone in the end. Every step keeps this, whatever
the script and the reader of keys, and makes the state smaller or ends in an error that is about the
script (`regular_meet`). So the decoder comes to an end by itself, it never takes a fragment that is
not there, and where nothing is expected any more exactly one fragment is left.

Every operation of a fragment was a token, or part of one. So the tokens left, the operations that
what is expected will have and those of the fragments found are together no more than the tokens of
the script (`Room`), and no check breaks off for want of a word for the operations.
-/

namespace LockScript

/-! ## Tokens within the script -/

namespace Script

/-- The elements of a script, and the push that is malformed if there is one, begin before its
end. -/
def Elements.Inside (size : Nat) : Elements → Prop
  | .done => True
  | .malformed offset _ => offset ≤ size
  | .cons e rest => e.offset ≤ size ∧ rest.Inside size

theorem length_pushOf {opcode : UInt8} {rest : Bytes} {push : Push}
    (found : pushOf opcode rest = .ok push) : push.width + push.data.length ≤ rest.length := by
  simp only [pushOf] at found
  generalize (if opcode.toNat = 0x4C then 1 else if opcode.toNat = 0x4D then 2 else 4) = width
    at found
  split at found
  · cases found
    exact Nat.zero_le _
  · split at found
    · split at found
      · cases found
      · cases found
        rw [Nat.zero_add, List.length_take]
        exact Nat.min_le_right _ _
    · split at found
      · cases found
      · split at found
        · cases found
        · cases found
          simp only [List.length_take, List.length_drop]
          omega

theorem inside_elementsFrom (bound : Nat) {offset size : Nat} {bytes : Bytes}
    (whole : offset + bytes.length = size) : (elementsFrom bound offset bytes).Inside size := by
  induction bound generalizing offset bytes with
  | zero =>
    cases bytes with
    | nil => trivial
    | cons opcode rest => trivial
  | succ bound ih =>
    cases bytes with
    | nil => trivial
    | cons opcode rest =>
      rw [List.length_cons] at whole
      rw [elementsFrom]
      split
      · exact (by omega : offset ≤ size)
      · next push found =>
        have length := length_pushOf found
        refine ⟨(by omega : offset ≤ size), ih ?_⟩
        rw [List.length_drop]
        omega

end Script

namespace Token

/-- Tokens that stand within a script of the given size. -/
def Inside (size : Nat) (tokens : List Token) : Prop := ∀ t ∈ tokens, t.offset ≤ size

theorem Inside.tail {size : Nat} {t : Token} {rest : List Token}
    (inside : Inside size (t :: rest)) : Inside size rest :=
  (List.forall_mem_cons.1 inside).2

theorem Inside.drop {size : Nat} {tokens : List Token} (inside : Inside size tokens) (n : Nat) :
    Inside size (tokens.drop n) :=
  fun t member => inside t (List.mem_of_mem_drop member)

/-- Tokens that stand within the given size, or an error within it. -/
def Lexed (size : Nat) : Except (Cause × Nat) (List Token) → Prop
  | .ok tokens => Inside size tokens
  | .error (_, offset) => offset ≤ size

theorem lexed_lexOnto {size : Nat} {before : List Token} {elements : Script.Elements}
    (inside : elements.Inside size) (earlier : Inside size before) :
    Lexed size (lexOnto before elements) := by
  induction elements generalizing before with
  | done => exact earlier
  | malformed offset fault => exact inside
  | cons e rest ih =>
    obtain ⟨here, later⟩ := inside
    rw [lexOnto]
    split
    · exact here
    · refine ih later fun t member => ?_
      rcases List.mem_append.1 member with fresh | old
      · obtain ⟨symbol, -, rfl⟩ := List.mem_map.1 fresh
        exact here
      · exact earlier t old

theorem lexed_lex (script : Bytes) : Lexed script.length (lex script) :=
  lexed_lexOnto (Script.inside_elementsFrom _ (Nat.zero_add _)) fun _ member => by cases member

end Token

namespace Decoder

section Tokens

variable {α : Type} {P : α → Prop} {size : Nat} {tokens : List Token}

/-- What the parts of a fragment should have been followed by is about the script. -/
theorem regular_unexpected (inside : Token.Inside size tokens) {wanted : ScriptWanted}
    (part : wanted ≠ .part) (child : wanted ≠ .thresholdChild) :
    Regular size P (unexpected tokens wanted) := by
  have plain (symbol : Option Symbol) : ¬ (Cause.script (.unexpected symbol wanted)).Internal := by
    cases wanted with
    | part => exact (part rfl).elim
    | thresholdChild => exact (child rfl).elim
    | _ => exact id
  cases tokens with
  | nil => exact .at (Nat.zero_le _) rfl (plain _)
  | cons t rest => exact .at (inside t List.mem_cons_self) rfl (plain _)

theorem regular_expectOp (o : Opcode) (inside : Token.Inside size tokens) :
    Regular size (fun rest => Token.Inside size rest ∧ rest.length < tokens.length)
      (expectOp o tokens) := by
  unfold expectOp
  split
  · split
    · exact ⟨inside.tail, Nat.lt_succ_self _⟩
    · exact regular_unexpected inside (by simp) (by simp)
  · exact regular_unexpected inside (by simp) (by simp)

theorem regular_expectNumber (n : UInt32) (inside : Token.Inside size tokens) :
    Regular size (fun rest => Token.Inside size rest ∧ rest.length < tokens.length)
      (expectNumber n tokens) := by
  unfold expectNumber
  split
  · split
    · exact ⟨inside.tail, Nat.lt_succ_self _⟩
    · exact regular_unexpected inside (by simp) (by simp)
  · exact regular_unexpected inside (by simp) (by simp)

theorem regular_hashLockStart (inside : Token.Inside size tokens) :
    Regular size (fun rest => Token.Inside size rest ∧ rest.length + 5 ≤ tokens.length)
      (hashLockStart tokens) := by
  refine (regular_expectOp .verify (inside.drop 1)).bind fun rest₁ good => ?_
  obtain ⟨inside₁, shorter₁⟩ := good
  refine (regular_expectOp .equal inside₁).bind fun rest₂ good => ?_
  obtain ⟨inside₂, shorter₂⟩ := good
  refine (regular_expectNumber 32 inside₂).bind fun rest₃ good => ?_
  obtain ⟨inside₃, shorter₃⟩ := good
  refine (regular_expectOp .size inside₃).imp fun rest₄ good => ?_
  obtain ⟨inside₄, shorter₄⟩ := good
  refine ⟨inside₄, ?_⟩
  rw [List.length_drop] at shorter₁
  omega

/-- A hash lock has four operations and takes five tokens, besides its hash. -/
theorem regular_hashLock {width : Nat} (image : Digest width) {wanted : ScriptWanted}
    (part : wanted ≠ .part) (child : wanted ≠ .thresholdChild)
    (inside : Token.Inside size tokens) :
    Regular size (fun taken => Token.Inside size taken.2 ∧ taken.2.length + 5 ≤ tokens.length ∧
      (Fragment.leaf taken.1).allOps = 4) (hashLock image wanted tokens) := by
  unfold hashLock
  split
  · exact regular_unexpected inside (by simp) (by simp)
  · split
    · exact regular_unexpected inside part child
    · split
      · refine (regular_hashLockStart inside).bind fun rest good => ?_
        obtain ⟨later, shorter⟩ := good
        exact ⟨later, shorter, rfl⟩
      · exact regular_unexpected inside part child

end Tokens

/-! ## Balanced stacks -/

/-- With this many fragments found, each expectation in turn finds the fragments that it takes and
leaves one, and in the end there is one. -/
def Balanced : List Expectation → Nat → Prop
  | [], found => found = 1
  | e :: expected, found => e.uses ≤ found ∧ Balanced expected (found - e.uses + 1)

/-- The operations that come with an expectation: those of what it makes of the fragments it takes,
less those for which there will be a token. -/
def Expectation.ops : Expectation → Nat
  | .alt => 1
  | .wrap w => w.ops
  | .pair op => op.ops
  | .andor => 3
  | .moreSubs _ n => n + 1
  | .thresh _ n => n
  | .endIf => 1
  | .beforeNotIf => 2
  | .beforeElse => 2
  | _ => 0

/-- The operations of the fragments found. -/
def foundOps (found : List Checked) : Int := Fragment.opsOf (found.map Checked.fragment)

/-- Tokens within a script of the given size and expectations, together of no more than the given
weight. The tokens, the operations that come with the expectations and `ops` more are accounted for by
the script. -/
structure Room (size bound : Nat) (tokens : List Token) (expected : List Expectation)
    (ops : Int) : Prop where
  inside : Token.Inside size tokens
  small : 8 * tokens.length + (expected.map Expectation.weight).sum ≤ bound
  load : tokens.length + (expected.map Expectation.ops).sum + ops ≤ 4 * size

theorem Room.fewer {size bound : Nat} {tokens : List Token} {expected : List Expectation}
    {ops ops' : Int} (room : Room size bound tokens expected ops) (fewer : ops' ≤ ops) :
    Room size bound tokens expected ops' :=
  ⟨room.inside, room.small, Int.le_trans (Int.add_le_add_left fewer _) room.load⟩

/-- A state with balanced stacks, within bounds. -/
structure State.Fits (size bound : Nat) (st : State) : Prop where
  balanced : Balanced st.expected st.found.length
  room : Room size bound st.tokens st.expected (foundOps st.found)

section Steps

variable {ctx : Context} {tokens : List Token} {expected : List Expectation} {found : List Checked}
  {bound : Nat}

theorem offset_le (inside : Token.Inside ctx.size tokens) : offset ctx tokens ≤ ctx.size := by
  cases tokens with
  | nil => exact Nat.le_refl _
  | cons t rest => exact inside t List.mem_cons_self

/-- More is expected, of the weight `w` and with `n` operations. -/
theorem regular_expecting (more : List Expectation) (w n : Nat)
    (weighs : (more.map Expectation.weight).sum = w) (comes : (more.map Expectation.ops).sum = n)
    (balanced : Balanced (more ++ expected) found.length) (inside : Token.Inside ctx.size tokens)
    (small : 8 * tokens.length + w + (expected.map Expectation.weight).sum ≤ bound)
    (load : tokens.length + n + (expected.map Expectation.ops).sum + foundOps found
      ≤ 4 * ctx.size) :
    Regular ctx.size (State.Fits ctx.size bound) (.ok ⟨tokens, more ++ expected, found⟩) := by
  refine ⟨balanced, inside, ?_, ?_⟩
  · rw [List.map_append, List.sum_append, weighs]
    dsimp only
    omega
  · rw [List.map_append, List.sum_append, comes]
    dsimp only
    omega

theorem regular_push (t : Composition) (balanced : Balanced expected (found.length + 1))
    (room : Room ctx.size bound tokens expected (t.fragment.allOps + foundOps found)) :
    Regular ctx.size (State.Fits ctx.size bound)
      (push ctx ⟨tokens, expected, found⟩ (t.check ctx.settings.limit)) := by
  have ops : t.fragment.allOps ≤ 4 * ctx.size := by
    have load := room.load
    have others := Fragment.opsOf_nonneg (found.map Checked.fragment)
    rw [foundOps] at load
    omega
  have made := regular_located ctx.settings.limit t (offset_le room.inside) ops
  unfold push
  split
  · next m accepted =>
    rw [accepted] at made
    have same : m.fragment = t.fragment := made
    refine ⟨balanced, room.fewer (Int.le_of_eq ?_)⟩
    rw [← same]
    rfl
  · next e failed =>
    rw [failed] at made
    exact made

theorem regular_pushWrap (w : Wrapper) (one : 1 ≤ found.length)
    (balanced : Balanced expected (found.length - 1 + 1))
    (room : Room ctx.size bound tokens expected (w.ops + foundOps found)) :
    Regular ctx.size (State.Fits ctx.size bound) (pushWrap ctx ⟨tokens, expected, found⟩ w) := by
  match found, one with
  | x :: found, _ =>
    refine regular_push (.wrap w x) balanced (room.fewer ?_)
    have most := (Fragment.allOps_wrap w x.fragment).2
    simp only [foundOps, List.map_cons, Fragment.opsOf, Composition.fragment]
    omega

theorem regular_pushPair (op : Combinator) (two : 2 ≤ found.length)
    (balanced : Balanced expected (found.length - 2 + 1))
    (room : Room ctx.size bound tokens expected (op.ops + foundOps found)) :
    Regular ctx.size (State.Fits ctx.size bound) (pushPair ctx ⟨tokens, expected, found⟩ op) := by
  match found, two with
  | x :: y :: found, _ =>
    refine regular_push (.pair op x y) balanced (room.fewer ?_)
    simp only [foundOps, List.map_cons, Fragment.opsOf, Composition.fragment, Fragment.allOps_pair]
    omega

theorem regular_pushAndor (three : 3 ≤ found.length)
    (balanced : Balanced expected (found.length - 3 + 1))
    (room : Room ctx.size bound tokens expected (3 + foundOps found)) :
    Regular ctx.size (State.Fits ctx.size bound) (pushAndor ctx ⟨tokens, expected, found⟩) := by
  match found, three with
  | x :: z :: y :: found, _ =>
    refine regular_push (.andor x y z) balanced (room.fewer ?_)
    simp only [foundOps, List.map_cons, Fragment.opsOf, Composition.fragment, Fragment.allOps_andor]
    omega

theorem regular_pushThresh (k : Nat) {n : Nat} (enough : n ≤ found.length)
    (balanced : Balanced expected (found.length - n + 1))
    (room : Room ctx.size bound tokens expected (n + foundOps found)) :
    Regular ctx.size (State.Fits ctx.size bound)
      (pushThresh ctx ⟨tokens, expected, found⟩ k n) := by
  rw [pushThresh, if_neg (Nat.not_lt.2 enough)]
  rw [← List.length_drop] at balanced
  refine regular_push (.thresh k (found.take n)) balanced (room.fewer ?_)
  have parts : foundOps found = foundOps (found.take n) + foundOps (found.drop n) := by
    rw [foundOps, foundOps, foundOps, ← Fragment.opsOf_append, ← List.map_append,
      List.take_append_drop]
  rw [Composition.fragment, Fragment.allOps_thresh, parts, List.length_map, List.length_take]
  simp only [foundOps]
  omega

/-! ## Fragments -/

theorem regular_decodeKey (data : Digest 33) {offset : Nat} (inside : offset ≤ ctx.size) :
    Regular ctx.size (fun _ => True) (decodeKey ctx data offset) := by
  unfold decodeKey
  split
  · trivial
  · exact .at inside rfl id

/-- Every key was a token. -/
theorem regular_takeKeys (n : Nat) (keys : List Key) (inside : Token.Inside ctx.size tokens) :
    Regular ctx.size (fun taken => Token.Inside ctx.size taken.2 ∧
      taken.1.length + taken.2.length ≤ keys.length + tokens.length)
      (takeKeys ctx n keys tokens) := by
  induction n generalizing keys tokens with
  | zero => exact ⟨inside, Nat.le_refl _⟩
  | succ n ih =>
    match tokens with
    | ⟨.push33 data, offset⟩ :: rest =>
      refine (regular_decodeKey data (inside _ List.mem_cons_self)).bind fun k _ => ?_
      refine (ih (k :: keys) inside.tail).imp fun taken good => ?_
      obtain ⟨later, fewer⟩ := good
      refine ⟨later, ?_⟩
      rw [List.length_cons] at fewer ⊢
      omega
    | [] => exact regular_unexpected inside (by simp) (by simp)
    | ⟨.op _, _⟩ :: _ => exact regular_unexpected inside (by simp) (by simp)
    | ⟨.number _, _⟩ :: _ => exact regular_unexpected inside (by simp) (by simp)
    | ⟨.push20 _, _⟩ :: _ => exact regular_unexpected inside (by simp) (by simp)
    | ⟨.push32 _, _⟩ :: _ => exact regular_unexpected inside (by simp) (by simp)

/-- A leaf adds one fragment, and the tokens that it was read from are gone. -/
theorem regular_pushLeaf (l : Leaf) (balanced : Balanced expected (found.length + 1))
    (room : Room ctx.size bound tokens expected ((Fragment.leaf l).allOps + foundOps found)) :
    Regular ctx.size (State.Fits ctx.size bound) (pushLeaf ctx ⟨tokens, expected, found⟩ l) :=
  regular_push (.leaf l) balanced room

theorem regular_multi (balanced : Balanced expected (found.length + 1))
    (room : Room ctx.size bound tokens expected (1 + foundOps found)) :
    Regular ctx.size (State.Fits ctx.size bound) (multi ctx ⟨tokens, expected, found⟩) := by
  obtain ⟨inside, small, load⟩ := room
  unfold multi
  split
  · next n offset rest same =>
    obtain rfl : tokens = _ := same
    rw [List.length_cons] at small load
    split
    · exact .at (inside _ List.mem_cons_self) rfl id
    · refine (regular_takeKeys n.toNat [] inside.tail).bind fun taken good => ?_
      obtain ⟨later, fewer⟩ := good
      dsimp only
      split
      · next k offset' rest' same =>
        rw [same] at later
        rw [same, List.length_cons, List.length_nil] at fewer
        refine regular_pushLeaf _ balanced ⟨later.tail, by omega, ?_⟩
        rw [Fragment.allOps_multi]
        omega
      · exact regular_unexpected later (by simp) (by simp)
  · exact regular_unexpected inside (by simp) (by simp)

theorem regular_timeLock {leaf : UInt32 → Leaf} (one : ∀ n, (Fragment.leaf (leaf n)).allOps = 1)
    (balanced : Balanced expected (found.length + 1))
    (room : Room ctx.size bound tokens expected (foundOps found)) :
    Regular ctx.size (State.Fits ctx.size bound) (timeLock ctx ⟨tokens, expected, found⟩ leaf) := by
  obtain ⟨inside, small, load⟩ := room
  unfold timeLock
  split
  · next n offset rest same =>
    obtain rfl : tokens = _ := same
    rw [List.length_cons] at small load
    refine regular_pushLeaf (leaf n) balanced ⟨inside.tail, by dsimp only; omega, ?_⟩
    rw [one]
    dsimp only
    omega
  · exact regular_unexpected inside (by simp) (by simp)

/-- A hash lock of which the hash was just read. -/
theorem regular_pushHash {width : Nat} (image : Digest width) {wanted : ScriptWanted}
    (part : wanted ≠ .part) (child : wanted ≠ .thresholdChild)
    (balanced : Balanced expected (found.length + 1))
    (room : Room ctx.size bound tokens expected (foundOps found)) :
    Regular ctx.size (State.Fits ctx.size bound) (hashLock image wanted tokens >>= fun taken =>
      pushLeaf ctx ⟨taken.2, expected, found⟩ taken.1) := by
  obtain ⟨inside, small, load⟩ := room
  refine (regular_hashLock image part child inside).bind fun taken good => ?_
  obtain ⟨later, shorter, four⟩ := good
  exact regular_pushLeaf taken.1 balanced ⟨later, by omega, by rw [four]; omega⟩

theorem regular_equal (balanced : Balanced expected (found.length + 1))
    (room : Room ctx.size bound tokens expected (1 + foundOps found)) :
    Regular ctx.size (State.Fits ctx.size bound) (equal ctx ⟨tokens, expected, found⟩) := by
  obtain ⟨inside, small, load⟩ := room
  unfold equal
  split
  · next hash offset rest same =>
    obtain rfl : tokens = _ := same
    rw [List.length_cons] at small load
    exact regular_pushHash hash (by simp) (by simp) balanced
      ⟨inside.tail, by dsimp only; omega, by dsimp only; omega⟩
  · next hash offset rest same =>
    obtain rfl : tokens = _ := same
    rw [List.length_cons] at small load
    exact regular_pushHash hash (by simp) (by simp) balanced
      ⟨inside.tail, by dsimp only; omega, by dsimp only; omega⟩
  · next k offset rest same =>
    obtain rfl : tokens = _ := same
    rw [List.length_cons] at small load
    exact regular_expecting [.moreSubs k.toNat 0] 3 1 rfl rfl ⟨Nat.zero_le _, balanced⟩ inside.tail
      (by dsimp only; omega) (by dsimp only; omega)
  · exact regular_unexpected inside (by simp) (by simp)

theorem regular_verifyEqual (balanced : Balanced expected (found.length + 1))
    (room : Room ctx.size bound tokens expected (2 + foundOps found)) :
    Regular ctx.size (State.Fits ctx.size bound) (verifyEqual ctx ⟨tokens, expected, found⟩) := by
  obtain ⟨inside, small, load⟩ := room
  have verified : Balanced (.wrap .verify :: expected) (found.length + 1) :=
    ⟨Nat.le_add_left _ _, balanced⟩
  -- The VERIFY around a hash lock is one more thing to expect, for the token that was the hash.
  have hashRoom {t : Token} {rest : List Token} (same : tokens = t :: rest) :
      Room ctx.size bound rest (.wrap .verify :: expected) (foundOps found) := by
    subst same
    rw [List.length_cons] at small load
    refine ⟨inside.tail, ?_, ?_⟩
    · simp only [List.map_cons, List.sum_cons, Expectation.weight]
      omega
    · simp only [List.map_cons, List.sum_cons, Expectation.ops, Wrapper.ops]
      omega
  simp only [verifyEqual]
  split
  · next hash offset rest =>
    split
    · rw [List.length_cons] at small load
      have three : (Fragment.leaf (.pkHash hash)).allOps = 3 := rfl
      have shorter := (rest.drop_sublist 2).length_le
      refine regular_pushLeaf (.pkHash hash) balanced ⟨inside.tail.drop 2, by omega, ?_⟩
      rw [three]
      omega
    · exact regular_pushHash hash (by simp) (by simp) verified (hashRoom rfl)
  · next hash offset rest =>
    exact regular_pushHash hash (by simp) (by simp) verified (hashRoom rfl)
  · next k offset rest =>
    rw [List.length_cons] at small load
    exact regular_expecting [.moreSubs k.toNat 0, .wrap .verify] 4 2 rfl rfl
      ⟨Nat.zero_le _, verified⟩ inside.tail (by omega) (by omega)
  · exact regular_unexpected inside (by simp) (by simp)

theorem length_drop_of_nextIs {o : Opcode} (next : nextIs o tokens = true) :
    (tokens.drop 1).length + 1 = tokens.length := by
  obtain ⟨offset, rest, rfl⟩ := exists_of_nextIs next
  rfl

/-- A fragment that begins takes a token that outweighs what it makes the decoder expect, and that
accounts for an operation. -/
theorem regular_fragment (balanced : Balanced expected (found.length + 1))
    (room : Room ctx.size (bound + 2) tokens expected (foundOps found)) :
    Regular ctx.size (State.Fits ctx.size bound) (fragment ctx ⟨tokens, expected, found⟩) := by
  obtain ⟨inside, small, load⟩ := room
  cases tokens with
  | nil => exact regular_unexpected inside (by simp) (by simp)
  | cons t rest =>
    obtain ⟨symbol, offset⟩ := t
    rw [List.length_cons] at small load
    have later := inside.tail
    have smaller : Room ctx.size bound rest expected (1 + foundOps found) :=
      ⟨later, by omega, by omega⟩
    have plain : Room ctx.size bound rest expected (foundOps found) := smaller.fewer (by omega)
    have expecting (more : List Expectation) (w : Nat) (light : w ≤ 6)
        (weighs : (more.map Expectation.weight).sum = w)
        (comes : (more.map Expectation.ops).sum = 1)
        (balanced : Balanced (more ++ expected) found.length) :
        Regular ctx.size (State.Fits ctx.size bound) (.ok ⟨rest, more ++ expected, found⟩) :=
      regular_expecting more w 1 weighs comes balanced later (by omega) (by omega)
    have refused : Regular ctx.size (State.Fits ctx.size bound)
        (unexpected (⟨symbol, offset⟩ :: rest) .fragment : Except Error State) :=
      regular_unexpected inside (by simp) (by simp)
    have leaf (l : Leaf) (none : (Fragment.leaf l).allOps = 0) :
        Regular ctx.size (State.Fits ctx.size bound) (pushLeaf ctx ⟨rest, expected, found⟩ l) :=
      regular_pushLeaf l balanced (smaller.fewer (by omega))
    cases symbol with
    | op o =>
      cases o with
      | checkSig =>
        exact expecting [.fragment, .wrap .check] 2 (by decide) rfl rfl
          ⟨Nat.zero_le _, Nat.le_add_left _ _, balanced⟩
      | zeroNotEqual =>
        exact expecting [.fragment, .wrap .zeroNotEqual] 2 (by decide) rfl rfl
          ⟨Nat.zero_le _, Nat.le_add_left _ _, balanced⟩
      | verify =>
        simp only [fragment]
        split
        · next equal =>
          have one := length_drop_of_nextIs equal
          exact regular_verifyEqual balanced ⟨later.drop 1, by omega, by omega⟩
        · exact expecting [.fragment, .wrap .verify] 2 (by decide) rfl rfl
            ⟨Nat.zero_le _, Nat.le_add_left _ _, balanced⟩
      | checkSequenceVerify =>
        exact regular_timeLock (fun _ => rfl) balanced plain
      | checkLockTimeVerify =>
        exact regular_timeLock (fun _ => rfl) balanced plain
      | equal => exact regular_equal balanced smaller
      | checkMultiSig => exact regular_multi balanced smaller
      | endIf =>
        exact expecting [.fragment, .maybeAndV, .endIf] 3 (by decide) rfl rfl
          ⟨Nat.zero_le _, Nat.le_add_left _ _, Nat.le_add_left _ _, balanced⟩
      | boolAnd =>
        exact expecting [.below, .fragment, .pair .andB] 6 (by decide) rfl rfl
          ⟨Nat.zero_le _, Nat.zero_le _, Nat.le_add_left _ _, balanced⟩
      | boolOr =>
        exact expecting [.below, .fragment, .pair .orB] 6 (by decide) rfl rfl
          ⟨Nat.zero_le _, Nat.zero_le _, Nat.le_add_left _ _, balanced⟩
      | _ => exact refused
    | number n =>
      simp only [fragment]
      split
      · exact leaf .zero rfl
      · split
        · exact leaf .one rfl
        · exact refused
    | push20 data => exact refused
    | push32 data => exact refused
    | push33 data =>
      refine (regular_decodeKey data (inside _ List.mem_cons_self)).bind fun k _ => ?_
      exact leaf (.pk k) rfl

/-! ## Steps -/

theorem Balanced.cons {e : Expectation} {n m : Nat} (enough : e.uses ≤ n)
    (left : n - e.uses + 1 = m) (balanced : Balanced expected m) : Balanced (e :: expected) n := by
  subst left
  exact ⟨enough, balanced⟩

theorem regular_endIf (body : 1 ≤ found.length) (balanced : Balanced expected found.length)
    (room : Room ctx.size bound tokens expected (1 + foundOps found)) :
    Regular ctx.size (State.Fits ctx.size bound) (endIf ⟨tokens, expected, found⟩) := by
  obtain ⟨inside, small, load⟩ := room
  have one (e : Expectation) (uses : e.uses = 1) : Balanced (e :: expected) found.length :=
    .cons (by omega) (by omega) balanced
  unfold endIf
  split
  · next offset rest same =>
    obtain rfl : tokens = _ := same
    rw [List.length_cons] at small load
    refine regular_expecting [.fragment, .maybeAndV, .beforeElse] 3 2 rfl rfl ?_ inside.tail
      (by dsimp only; omega) (by dsimp only; omega)
    refine ⟨Nat.zero_le _, Nat.le_add_left _ _, .cons (Nat.add_le_add_right body 1) ?_ balanced⟩
    dsimp only [Expectation.uses]
    omega
  · next offset rest same =>
    obtain rfl : tokens = _ := same
    rw [List.length_cons] at small load
    split
    · rw [List.length_cons] at small load
      exact regular_expecting [.wrap .dupIf] 1 3 rfl rfl (one _ rfl) inside.tail.tail
        (by dsimp only; omega) (by dsimp only; omega)
    · next offset' rest' =>
      rw [List.length_cons] at small load
      refine (regular_expectOp .size inside.tail.tail).bind fun rest good => ?_
      obtain ⟨later, shorter⟩ := good
      exact regular_expecting [.wrap .nonZero] 1 4 rfl rfl (one _ rfl) later
        (by dsimp only; omega) (by dsimp only; omega)
    · exact regular_unexpected inside.tail (by simp) (by simp)
  · next offset rest same =>
    obtain rfl : tokens = _ := same
    rw [List.length_cons] at small load
    exact regular_expecting [.beforeNotIf] 3 2 rfl rfl (one _ rfl) inside.tail
      (by dsimp only; omega) (by dsimp only; omega)
  · exact regular_unexpected inside (by simp) (by simp)

/-- A step from balanced stacks keeps them balanced and makes the state smaller, or it ends in an
error about the script. -/
theorem regular_meet {e : Expectation} (balanced : Balanced (e :: expected) found.length)
    (room : Room ctx.size (bound + 1) tokens (e :: expected) (foundOps found)) :
    Regular ctx.size (State.Fits ctx.size bound) (meet ctx ⟨tokens, expected, found⟩ e) := by
  obtain ⟨enough, after⟩ := balanced
  obtain ⟨inside, small, load⟩ := room
  rw [List.map_cons, List.sum_cons] at small load
  -- What takes the place of `e` after one more fragment takes that fragment too.
  have late (e' : Expectation) (more : e'.uses = e.uses + 1) :
      Balanced (e' :: expected) (found.length + 1) :=
    .cons (by omega) (by omega) after
  cases e with
  | fragment =>
    simp only [Expectation.weight, Expectation.ops] at small load
    exact regular_fragment after ⟨inside, by omega, by omega⟩
  | below =>
    simp only [Expectation.weight, Expectation.ops] at small load
    simp only [meet]
    split
    · next alt =>
      have one := length_drop_of_nextIs alt
      exact regular_expecting [.fragment, .maybeAndV, .alt] 3 1 rfl rfl
        ⟨Nat.zero_le _, Nat.le_add_left _ _, Nat.le_add_left _ _, after⟩ (inside.drop 1)
        (by omega) (by omega)
    · exact regular_expecting [.fragment, .maybeAndV, .maybeSwap] 3 0 rfl rfl
        ⟨Nat.zero_le _, Nat.le_add_left _ _, Nat.le_add_left _ _, after⟩ inside
        (by omega) (by omega)
  | maybeSwap =>
    simp only [Expectation.uses, Expectation.weight, Expectation.ops] at enough after small load
    simp only [meet]
    split
    · next swap =>
      have one := length_drop_of_nextIs swap
      exact regular_pushWrap .swap enough after
        ⟨inside.drop 1, by omega, by rw [Wrapper.ops]; omega⟩
    · rw [Nat.sub_add_cancel enough] at after
      exact regular_expecting [] 0 0 rfl rfl after inside (by omega) (by omega)
  | maybeAndV =>
    simp only [Expectation.uses, Expectation.weight, Expectation.ops] at enough after small load
    simp only [meet]
    split
    · rw [Nat.sub_add_cancel enough] at after
      exact regular_expecting [] 0 0 rfl rfl after inside (by omega) (by omega)
    · refine regular_fragment (late .andV rfl) ⟨inside, ?_, ?_⟩
      · simp only [List.map_cons, List.sum_cons, Expectation.weight]
        omega
      · simp only [List.map_cons, List.sum_cons, Expectation.ops]
        omega
  | alt =>
    simp only [Expectation.uses, Expectation.weight, Expectation.ops] at enough after small load
    refine (regular_expectOp .toAltStack inside).bind fun rest good => ?_
    obtain ⟨later, shorter⟩ := good
    exact regular_pushWrap .alt enough after
      ⟨later, by dsimp only at shorter ⊢; omega, by rw [Wrapper.ops]; dsimp only at shorter ⊢; omega⟩
  | wrap w =>
    simp only [Expectation.uses, Expectation.weight, Expectation.ops] at enough after small load
    exact regular_pushWrap w enough after ⟨inside, by omega, by omega⟩
  | pair op =>
    simp only [Expectation.uses, Expectation.weight, Expectation.ops] at enough after small load
    exact regular_pushPair op enough after ⟨inside, by omega, by omega⟩
  | andV =>
    simp only [Expectation.uses, Expectation.weight, Expectation.ops] at enough after small load
    have room : Room ctx.size (bound - 1) tokens expected (Combinator.andV.ops + foundOps found) :=
      ⟨inside, by omega, by rw [Combinator.ops]; omega⟩
    refine (regular_pushPair .andV enough after room).known.bind fun next kept => ?_
    obtain ⟨x, y, rest, m, rfl, -, rfl⟩ := pushPair_eq_ok_iff.1 kept.2
    obtain ⟨-, later, lighter, lower⟩ := kept.1
    exact regular_expecting [.maybeAndV] 1 0 rfl rfl ⟨Nat.le_add_left _ _, after⟩ later
      (by dsimp only at lighter ⊢; omega) (by dsimp only at lower ⊢; omega)
  | andor =>
    simp only [Expectation.uses, Expectation.weight, Expectation.ops] at enough after small load
    exact regular_pushAndor enough after ⟨inside, by omega, by omega⟩
  | moreSubs k n =>
    simp only [Expectation.uses, Expectation.weight, Expectation.ops] at enough after small load
    simp only [meet]
    split
    · next add =>
      have one := length_drop_of_nextIs add
      exact regular_expecting [.below, .moreSubs k (n + 1)] 7 (n + 2) rfl (Nat.zero_add _)
        ⟨Nat.zero_le _, late _ rfl⟩ (inside.drop 1) (by omega) (by omega)
    · exact regular_expecting [.fragment, .thresh k (n + 1)] 2 (n + 1) rfl (Nat.zero_add _)
        ⟨Nat.zero_le _, late _ rfl⟩ inside (by omega) (by omega)
  | thresh k n =>
    simp only [Expectation.uses, Expectation.weight, Expectation.ops] at enough after small load
    exact regular_pushThresh k enough after ⟨inside, by omega, by omega⟩
  | endIf =>
    simp only [Expectation.uses, Expectation.weight, Expectation.ops] at enough after small load
    rw [Nat.sub_add_cancel enough] at after
    exact regular_endIf enough after ⟨inside, by omega, by omega⟩
  | beforeNotIf =>
    simp only [Expectation.uses, Expectation.weight, Expectation.ops] at enough after small load
    simp only [meet]
    split
    · next dup =>
      have one := length_drop_of_nextIs dup
      exact regular_expecting [.fragment, .pair .orD] 2 3 rfl rfl
        ⟨Nat.zero_le _, late _ rfl⟩ (inside.drop 1) (by omega) (by omega)
    · exact regular_expecting [.fragment, .pair .orC] 2 2 rfl rfl
        ⟨Nat.zero_le _, late _ rfl⟩ inside (by omega) (by omega)
  | beforeElse =>
    simp only [Expectation.uses, Expectation.weight, Expectation.ops] at enough after small load
    simp only [meet]
    split
    · next ifOp =>
      have one := length_drop_of_nextIs ifOp
      exact regular_pushPair .orI enough after
        ⟨inside.drop 1, by omega, by rw [Combinator.ops]; omega⟩
    · split
      · next notIf =>
        have one := length_drop_of_nextIs notIf
        exact regular_expecting [.fragment, .andor] 2 3 rfl rfl
          ⟨Nat.zero_le _, late _ rfl⟩ (inside.drop 1) (by omega) (by omega)
      · exact regular_unexpected inside (by simp) (by simp)

end Steps

/-! ## Runs -/

/-- How the decoder comes to its result if nothing limits the number of its steps: it meets one
expectation after the other, until there are none or one is not met. -/
inductive Runs (ctx : Context) : State → Except Error Checked → Prop
  | ends {tokens : List Token} {found : List Checked} :
    Runs ctx ⟨tokens, [], found⟩ (finish ⟨tokens, [], found⟩)
  | fails {tokens : List Token} {e : Expectation} {expected : List Expectation}
    {found : List Checked} {failure : Error}
    (failed : meet ctx ⟨tokens, expected, found⟩ e = .error failure) :
    Runs ctx ⟨tokens, e :: expected, found⟩ (.error failure)
  | goesOn {tokens : List Token} {e : Expectation} {expected : List Expectation}
    {found : List Checked} {next : State} {result : Except Error Checked}
    (met : meet ctx ⟨tokens, expected, found⟩ e = .ok next) (runs : Runs ctx next result) :
    Runs ctx ⟨tokens, e :: expected, found⟩ result

/-- The states that the decoder passes. -/
inductive Reaches (ctx : Context) (first : State) : State → Prop
  | start : Reaches ctx first first
  | step {tokens : List Token} {e : Expectation} {expected : List Expectation}
    {found : List Checked} {next : State} (before : Reaches ctx first ⟨tokens, e :: expected, found⟩)
    (met : meet ctx ⟨tokens, expected, found⟩ e = .ok next) : Reaches ctx first next

section Runs

variable {ctx : Context} {st next : State} {bound : Nat}

theorem one_le_weight (e : Expectation) : 1 ≤ e.weight := by
  cases e <;> simp [Expectation.weight]

/-- A step that is taken keeps the state within bounds, and makes it smaller. -/
theorem fits_of_meet {tokens : List Token} {e : Expectation} {expected : List Expectation}
    {found : List Checked} (fits : State.Fits ctx.size (bound + 1) ⟨tokens, e :: expected, found⟩)
    (met : meet ctx ⟨tokens, expected, found⟩ e = .ok next) : next.Fits ctx.size bound := by
  have regular : Regular ctx.size (State.Fits ctx.size bound)
      (meet ctx ⟨tokens, expected, found⟩ e) := regular_meet fits.balanced fits.room
  rw [met] at regular
  exact regular

/-- Something that is expected has a weight. -/
theorem State.Fits.pos {tokens : List Token} {e : Expectation} {expected : List Expectation}
    {found : List Checked} (fits : State.Fits ctx.size bound ⟨tokens, e :: expected, found⟩) :
    ∃ less, bound = less + 1 := by
  have small := fits.room.small
  have weighs := one_le_weight e
  rw [List.map_cons, List.sum_cons] at small
  exact ⟨bound - 1, by omega⟩

theorem Reaches.fits (fits : st.Fits ctx.size bound) (reaches : Reaches ctx st next) :
    next.Fits ctx.size bound := by
  induction reaches with
  | start => exact fits
  | step _ met ih =>
    obtain ⟨less, rfl⟩ := ih.pos
    have kept := fits_of_meet ih met
    exact ⟨kept.balanced, kept.room.inside, Nat.le_succ_of_le kept.room.small, kept.room.load⟩

/-- Where nothing is expected any more, one fragment is left; there may be tokens left as well. -/
theorem regular_finish {tokens : List Token} {found : List Checked}
    (fits : State.Fits ctx.size bound ⟨tokens, [], found⟩) :
    Regular ctx.size (fun _ => True) (finish ⟨tokens, [], found⟩) := by
  obtain ⟨m, rfl⟩ := List.length_eq_one_iff.1 fits.balanced
  cases tokens with
  | nil => trivial
  | cons t rest => exact .at (fits.room.inside t List.mem_cons_self) rfl id

/-- With more steps than the state is large, the decoder comes to an end by itself, and not in an
internal error. -/
theorem runs_of_fits {steps : Nat} (fits : st.Fits ctx.size bound) (enough : bound < steps) :
    Runs ctx st (run ctx steps st) ∧ Regular ctx.size (fun _ => True) (run ctx steps st) := by
  induction steps generalizing st bound with
  | zero => exact (Nat.not_lt_zero _ enough).elim
  | succ steps ih =>
    obtain ⟨tokens, expected, found⟩ := st
    cases expected with
    | nil => exact ⟨.ends, regular_finish fits⟩
    | cons e expected =>
      obtain ⟨less, rfl⟩ := fits.pos
      have regular : Regular ctx.size (State.Fits ctx.size less)
          (meet ctx ⟨tokens, expected, found⟩ e) := regular_meet fits.balanced fits.room
      rw [run]
      dsimp only
      cases met : meet ctx ⟨tokens, expected, found⟩ e with
      | error failure =>
        rw [met] at regular
        exact ⟨.fails met, regular⟩
      | ok next =>
        rw [met] at regular
        obtain ⟨runs, ends⟩ := ih regular (Nat.lt_of_succ_lt_succ enough)
        exact ⟨.goesOn met runs, ends⟩

end Runs

/-- At the start a fragment is expected, and perhaps others in sequence before it. -/
theorem fits_start {script : Bytes} {tokens : List Token} (lexed : Token.lex script = .ok tokens) :
    (start tokens).Fits script.length (8 * tokens.length + 2) := by
  have inside := Token.lexed_lex script
  have few := Token.length_le_of_lex lexed
  rw [lexed] at inside
  refine ⟨⟨Nat.zero_le _, Nat.le_refl _, rfl⟩, inside, Nat.le_refl _, ?_⟩
  simp only [start, List.map_cons, List.map_nil, List.sum_cons, List.sum_nil, Expectation.ops,
    foundOps, Fragment.opsOf]
  omega

theorem regular_decode (s : Settings) (script : Bytes) :
    Regular script.length (fun _ => True) (decode s script) := by
  have lexed := Token.lexed_lex script
  unfold decode
  split
  · next cause offset failed =>
    rw [failed] at lexed
    exact .at lexed rfl id
  · next tokens found =>
    exact (@runs_of_fits ⟨s, script.length⟩ _ _ _ (fits_start found) (Nat.lt_succ_self _)).2

/-- The decoder comes to an end by itself, with a fragment or an error that is about the script. On
the way it always has the fragments that the next expectation takes, and where nothing is expected
any more exactly one is left. This holds for every script and for every reader of keys, except that a
script that is long beyond measure may have so many operations that a check breaks off. -/
theorem decode_keeps_balance (s : Settings) (script : Bytes) :
    (∀ e, decode s script = .error e → e.cause.Internal →
      (∃ v, e.cause = .broken v) ∧ 0x2000000000000000 ≤ script.length) ∧
    ∀ tokens, Token.lex script = .ok tokens →
      Runs ⟨s, script.length⟩ (start tokens) (decode s script) ∧
      ∀ st, Reaches ⟨s, script.length⟩ (start tokens) st →
        (∀ e ∈ st.expected.head?, e.uses ≤ st.found.length) ∧
        (st.expected = [] → st.found.length = 1) := by
  refine ⟨fun e failed internal => ?_, fun tokens lexed => ⟨?_, fun st reaches => ?_⟩⟩
  · have regular := regular_decode s script
    rw [failed] at regular
    obtain ⟨v, broken⟩ := regular.guarded internal
    refine ⟨⟨v, broken⟩, Nat.le_of_not_lt fun small => ?_⟩
    obtain ⟨kind, known⟩ := regular.kind small
    rw [broken] at known
    cases known
  · rw [decode, lexed]
    exact (runs_of_fits (fits_start lexed) (Nat.lt_succ_self _)).1
  · have balanced := (reaches.fits (fits_start lexed)).balanced
    obtain ⟨left, expected, found⟩ := st
    cases expected with
    | nil => exact ⟨fun e first => (by cases first), fun _ => balanced⟩
    | cons e expected =>
      refine ⟨fun e' first => ?_, fun none => (by cases none)⟩
      obtain rfl := Option.mem_some.1 first
      exact balanced.1

/-- `1 1 ADD 2 EQUAL`, a threshold with a second part that is neither `a:X` nor `s:X`. -/
def strayPartScript : Bytes := [0x51, 0x51, 0x93, 0x52, 0x87]

theorem decode_keeps_balance_strayPart :
    (decode {} strayPartScript).isOk = false ∧
    ∃ tokens, Token.lex strayPartScript = .ok tokens ∧
      Runs ⟨{}, 5⟩ (start tokens) (decode {} strayPartScript) ∧
      ∀ st, Reaches ⟨{}, 5⟩ (start tokens) st →
        (∀ e ∈ st.expected.head?, e.uses ≤ st.found.length) ∧
        (st.expected = [] → st.found.length = 1) := by
  have refused : (decode {} strayPartScript).isOk = false := by decide +kernel
  have accepted : (Token.lex strayPartScript).isOk = true := by decide +kernel
  cases lexed : Token.lex strayPartScript with
  | error failure =>
    rw [lexed] at accepted
    cases accepted
  | ok tokens =>
    exact ⟨refused, tokens, rfl, (decode_keeps_balance {} strayPartScript).2 tokens lexed⟩

end Decoder

end LockScript
