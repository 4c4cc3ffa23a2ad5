import LockScript.Proofs.Decoder.Rules
import LockScript.Proofs.Key.Reading

/-!
The steps of the decoder.

For keys that are read from their encoding the decoder does what the rules say: each of its steps is
one of theirs (`meets_of_meet`), and it takes each step that they allow (`exists_meet`).
-/

namespace LockScript.Decoder

/-! ## Tokens and results -/

section Results

variable {tokens rest : List Token}

theorem exists_token {s : Symbol} {S : List Symbol} (same : tokens.map Token.symbol = s :: S) :
    ∃ offset rest, tokens = ⟨s, offset⟩ :: rest ∧ rest.map Token.symbol = S := by
  obtain ⟨⟨t, offset⟩, rest, rfl, rfl, tail⟩ := List.map_eq_cons_iff.1 same
  exact ⟨offset, rest, rfl, tail⟩

theorem nextIs_iff {o : Opcode} :
    nextIs o tokens = true ↔ (tokens.map Token.symbol).head? = some (.op o) := by
  cases tokens <;> simp [nextIs]

theorem exists_of_nextIs {o : Opcode} (next : nextIs o tokens = true) :
    ∃ offset rest, tokens = ⟨.op o, offset⟩ :: rest := by
  cases tokens with
  | nil => cases next
  | cons t rest =>
    obtain ⟨symbol, offset⟩ := t
    have same : symbol = .op o := of_decide_eq_true next
    exact ⟨offset, rest, by rw [same]⟩

theorem endsAndV_iff : endsAndV tokens = true ↔ EndsAndV (tokens.map Token.symbol) := by
  cases tokens with
  | nil => simp [endsAndV, EndsAndV]
  | cons t rest =>
    simp only [endsAndV, Bool.or_eq_true, nextIs_iff, List.isEmpty_cons, Bool.false_eq_true,
      false_or]
    simp [EndsAndV, or_assoc]

@[simp] theorem unexpected_ne_ok {α : Type} {wanted : ScriptWanted} {a : α} :
    unexpected tokens wanted ≠ .ok a := by
  cases tokens <;> simp [unexpected, scriptError]

theorem expectOp_eq_ok_iff {o : Opcode} :
    expectOp o tokens = .ok rest ↔ ∃ offset, tokens = ⟨.op o, offset⟩ :: rest := by
  unfold expectOp
  split
  · next o' offset tail =>
    by_cases same : o' = o
    · simp [same]
    · simp [same]
  · next other =>
    constructor
    · intro found
      exact (unexpected_ne_ok found).elim
    · rintro ⟨offset, rfl⟩
      exact (other o offset rest rfl).elim

theorem expectNumber_eq_ok_iff {n : UInt32} :
    expectNumber n tokens = .ok rest ↔ ∃ offset, tokens = ⟨.number n, offset⟩ :: rest := by
  unfold expectNumber
  split
  · next n' offset tail =>
    by_cases same : n' = n
    · simp [same]
    · simp [same]
  · next other =>
    constructor
    · intro found
      exact (unexpected_ne_ok found).elim
    · rintro ⟨offset, rfl⟩
      exact (other n offset rest rfl).elim

variable {ctx : Context} {st next : State}

theorem push_eq_ok_iff {made : Except Error Checked} :
    push ctx st made = .ok next ↔
      ∃ m, made = .ok m ∧ next = { st with found := m :: st.found } := by
  unfold push
  cases made <;> simp [located, eq_comm]

theorem pushWrap_eq_ok_iff {w : Wrapper} :
    pushWrap ctx st w = .ok next ↔ ∃ x found m, st.found = x :: found ∧
      Checked.wrap ctx.settings.limit w x = .ok m ∧ next = { st with found := m :: found } := by
  unfold pushWrap
  cases st.found <;> simp [push_eq_ok_iff]

theorem pushPair_eq_ok_iff {op : Combinator} :
    pushPair ctx st op = .ok next ↔ ∃ x y found m, st.found = x :: y :: found ∧
      Checked.pair ctx.settings.limit op x y = .ok m ∧ next = { st with found := m :: found } := by
  unfold pushPair
  split
  · next same => simp [push_eq_ok_iff, same]
  · next other =>
    constructor
    · intro made
      exact (unexpected_ne_ok made).elim
    · rintro ⟨x, y, found, m, same, _⟩
      exact (other x y found same).elim

theorem pushAndor_eq_ok_iff :
    pushAndor ctx st = .ok next ↔ ∃ x y z found m, st.found = x :: z :: y :: found ∧
      Checked.andor ctx.settings.limit x y z = .ok m ∧ next = { st with found := m :: found } := by
  unfold pushAndor
  split
  · next same => simp [push_eq_ok_iff, same]
  · next other =>
    constructor
    · intro made
      exact (unexpected_ne_ok made).elim
    · rintro ⟨x, y, z, found, m, same, _⟩
      exact (other x z y found same).elim

theorem pushThresh_eq_ok_iff {k n : Nat} :
    pushThresh ctx st k n = .ok next ↔ ∃ subs found m, st.found = subs ++ found ∧
      subs.length = n ∧ Checked.thresh ctx.settings.limit k subs = .ok m ∧
      next = { st with found := m :: found } := by
  unfold pushThresh
  split
  · next short =>
    constructor
    · intro made
      exact (unexpected_ne_ok made).elim
    · rintro ⟨subs, found, m, same, size, _⟩
      rw [same, List.length_append] at short
      omega
  · next enough =>
    rw [push_eq_ok_iff]
    constructor
    · rintro ⟨m, made, rfl⟩
      exact ⟨_, _, m, (List.take_append_drop n st.found).symm,
        List.length_take_of_le (Nat.le_of_not_lt enough), made, rfl⟩
    · rintro ⟨subs, found, m, same, rfl, made, rfl⟩
      exact ⟨m, by simpa [same] using made, by simp [same]⟩

end Results

/-! ## Leaves -/

/-- The symbol of a point. -/
def pointSymbol (p : Point) : Symbol := .push33 ⟨p.bytes, p.length_bytes⟩

section Leaves

variable {ctx : Context} (readsPoints : ctx.settings.decodeKey = Key.ofBytes)

include readsPoints in
theorem decodeKey_eq_ok_iff {data : Digest 33} {offset : Nat} {k : Key} :
    decodeKey ctx data offset = .ok k ↔ ∃ p, k = .point p ∧ Symbol.push33 data = pointSymbol p := by
  unfold decodeKey
  rw [readsPoints]
  constructor
  · intro read
    split at read
    · next k' made =>
      cases read
      obtain ⟨p, rfl, same⟩ := Key.ofBytes_eq_ok_iff.1 made
      exact ⟨p, rfl, congrArg Symbol.push33 (Digest.ext_bytes same.symm)⟩
    · cases read
  · rintro ⟨p, rfl, same⟩
    cases same
    rw [Key.ofBytes_eq_ok_iff.2 ⟨p, rfl, rfl⟩]

include readsPoints in
theorem takeKeys_eq_ok_iff {n : Nat} {keys ks : List Key} {tokens rest : List Token} :
    takeKeys ctx n keys tokens = .ok (ks, rest) ↔
      ∃ (before : List Token) (ps : List Point), tokens = before ++ rest ∧ ps.length = n ∧
        before.map Token.symbol = (ps.map pointSymbol).reverse ∧ ks = ps.map .point ++ keys := by
  induction n generalizing keys tokens with
  | zero =>
    rw [takeKeys]
    constructor
    · rintro ⟨⟩
      exact ⟨[], [], rfl, rfl, rfl, rfl⟩
    · rintro ⟨before, ps, rfl, none, same, rfl⟩
      obtain rfl := List.length_eq_zero_iff.1 none
      obtain rfl := List.map_eq_nil_iff.1 same
      rfl
  | succ n ih =>
    constructor
    · intro taken
      match tokens with
      | [] => exact (unexpected_ne_ok taken).elim
      | ⟨.op _, _⟩ :: _ => exact (unexpected_ne_ok taken).elim
      | ⟨.number _, _⟩ :: _ => exact (unexpected_ne_ok taken).elim
      | ⟨.push20 _, _⟩ :: _ => exact (unexpected_ne_ok taken).elim
      | ⟨.push32 _, _⟩ :: _ => exact (unexpected_ne_ok taken).elim
      | ⟨.push33 data, offset⟩ :: tokens =>
        obtain ⟨k, decoded, others⟩ := bind_eq_ok_iff.1 taken
        obtain ⟨p, rfl, symbol⟩ := (decodeKey_eq_ok_iff readsPoints).1 decoded
        obtain ⟨before, ps, rfl, rfl, same, rfl⟩ := ih.1 others
        exact ⟨⟨_, offset⟩ :: before, ps ++ [p], rfl, by simp, by simp [same, symbol], by simp⟩
    · rintro ⟨before, ps, rfl, size, same, rfl⟩
      obtain ⟨qs, p, rfl⟩ : ∃ qs p, ps = qs ++ [p] := by
        rcases List.eq_nil_or_concat ps with rfl | ⟨qs, p, rfl⟩
        · cases size
        · exact ⟨qs, p, by simp⟩
      rw [List.map_append, List.reverse_append] at same
      obtain ⟨offset, tail, rfl, others⟩ := exists_token same
      refine bind_eq_ok_iff.2 ⟨.point p, (decodeKey_eq_ok_iff readsPoints).2 ⟨p, rfl, rfl⟩, ?_⟩
      exact ih.2 ⟨tail, qs, rfl, by simpa using size, others, by simp⟩

theorem hashLockStart_eq_ok_iff {t : Token} {tokens rest : List Token} :
    hashLockStart (t :: tokens) = .ok rest ↔ ∃ before, tokens = before ++ rest ∧
      before.map Token.symbol = [.op .verify, .op .equal, .number 32, .op .size] := by
  simp only [hashLockStart, bind_eq_ok_iff, expectOp_eq_ok_iff, expectNumber_eq_ok_iff,
    List.drop_succ_cons, List.drop_zero]
  constructor
  · rintro ⟨_, ⟨o₁, rfl⟩, _, ⟨o₂, rfl⟩, _, ⟨o₃, rfl⟩, o₄, rfl⟩
    exact ⟨[⟨_, o₁⟩, ⟨_, o₂⟩, ⟨_, o₃⟩, ⟨_, o₄⟩], rfl, rfl⟩
  · rintro ⟨before, rfl, same⟩
    obtain ⟨o₁, _, rfl, same₁⟩ := exists_token same
    obtain ⟨o₂, _, rfl, same₂⟩ := exists_token same₁
    obtain ⟨o₃, _, rfl, same₃⟩ := exists_token same₂
    obtain ⟨o₄, _, rfl, same₄⟩ := exists_token same₃
    obtain rfl := List.map_eq_nil_iff.1 same₄
    exact ⟨_, ⟨o₁, rfl⟩, _, ⟨o₂, rfl⟩, _, ⟨o₃, rfl⟩, o₄, rfl⟩

theorem hashFunction?_eq_some_iff {width : Nat} {tokens : List Token} {f : HashFunction} :
    hashFunction? width tokens = some f ↔ f.width = width ∧ nextIs f.opcode tokens = true := by
  constructor
  · intro found
    simpa using List.find?_some found
  · rintro ⟨rfl, next⟩
    obtain ⟨offset, rest, rfl⟩ := exists_of_nextIs next
    cases f <;>
      simp [hashFunction?, hashFunctions, nextIs, HashFunction.width, HashFunction.opcode]

/-- A hash lock is recognised by the opcode before its hash. -/
theorem hashLock_eq_ok_iff {width : Nat} {image : Digest width} {wanted : ScriptWanted}
    {tokens rest : List Token} {l : Leaf} :
    hashLock image wanted tokens = .ok (l, rest) ↔
      ∃ (f : HashFunction) (same : width = f.width) (before : List Token),
        l = .hashLock f (same ▸ image) ∧ tokens = before ++ rest ∧
        before.map Token.symbol
          = [.op f.opcode, .op .verify, .op .equal, .number 32, .op .size] := by
  cases tokens with
  | nil =>
    constructor
    · intro found
      simp [hashLock] at found
    · rintro ⟨f, same, before, -, empty, spelled⟩
      obtain ⟨rfl, -⟩ := List.append_eq_nil_iff.1 empty.symm
      cases spelled
  | cons t tokens =>
    simp only [hashLock, List.isEmpty_cons, Bool.false_eq_true, if_false]
    constructor
    · intro found
      split at found
      · exact (unexpected_ne_ok found).elim
      · next f function =>
        obtain ⟨-, next⟩ := hashFunction?_eq_some_iff.1 function
        split at found
        · next same =>
          obtain ⟨others, start, made⟩ := bind_eq_ok_iff.1 found
          cases made
          obtain ⟨before, rfl, spelled⟩ := hashLockStart_eq_ok_iff.1 start
          have symbol : t.symbol = .op f.opcode := of_decide_eq_true next
          exact ⟨f, same, t :: before, rfl, rfl, by rw [List.map_cons, spelled, symbol]⟩
        · exact (unexpected_ne_ok found).elim
    · rintro ⟨f, same, before, rfl, split, spelled⟩
      obtain ⟨offset, others, rfl, spelled'⟩ := exists_token spelled
      rw [List.cons_append, List.cons.injEq] at split
      obtain ⟨rfl, rfl⟩ := split
      have function : hashFunction? width (⟨.op f.opcode, offset⟩ :: (others ++ rest)) = some f :=
        hashFunction?_eq_some_iff.2 ⟨same.symm, by simp [nextIs]⟩
      rw [function]
      simp only [same, dite_true]
      exact bind_eq_ok_iff.2 ⟨rest, hashLockStart_eq_ok_iff.2 ⟨others, rfl, spelled'⟩, rfl⟩

/-- The symbol of the image of a hash lock. -/
def imageSymbol : (f : HashFunction) → Digest f.width → Symbol
  | .sha256, image => .push32 image
  | .hash256, image => .push32 image
  | .ripemd160, image => .push20 image
  | .hash160, image => .push20 image

theorem spelled_hashLock (f : HashFunction) (image : Digest f.width) :
    (Fragment.leaf (.hashLock f image)).spelled
      = [.op .equal, imageSymbol f image, .op f.opcode, .op .verify, .op .equal, .number 32,
        .op .size] := by
  rw [Fragment.spelled, Fragment.symbols_eq, Fragment.instructions]
  cases f <;>
    simp [Leaf.instructions, Instruction.symbols, Opcode.simpler, Opcode.orVerify, Symbol.ofData?,
      imageSymbol, HashFunction.opcode, HashFunction.width] <;> rfl

theorem spelled_pkHash (hash : Digest 20) :
    (Fragment.leaf (.pkHash hash)).spelled
      = [.op .verify, .op .equal, .push20 hash, .op .hash160, .op .dup] := by
  rw [Fragment.spelled, Fragment.symbols_eq, Fragment.instructions]
  simp [Leaf.instructions, Instruction.symbols, Opcode.simpler, Symbol.ofData?]

theorem spelled_multi (k : Int) (ps : List Point) :
    (Fragment.leaf (.multi k (ps.map .point))).spelled
      = .op .checkMultiSig :: .number (UInt32.ofNat ps.length) ::
        ((ps.map pointSymbol).reverse ++ [.number (UInt32.ofNat k.toNat)]) := by
  rw [Fragment.spelled, Fragment.symbols_eq, Fragment.instructions]
  simp [Leaf.instructions, Instruction.symbols, Opcode.simpler, Opcode.orVerify, List.flatMap_map]
  exact List.flatMap_pure_eq_map pointSymbol ps

end Leaves

/-! ## The last symbols of a fragment -/

section Fragments

variable {ctx : Context} {rest : List Token} {expected : List Expectation} {found : List Checked}
  {next : State}

theorem begins_of_pushLeaf {l : Leaf} {S : List Symbol} (readable : l.Readable) (few : l.FewKeys)
    (spelled : S = (Fragment.leaf l).spelled ++ rest.map Token.symbol)
    (pushed : pushLeaf ctx ⟨rest, expected, found⟩ l = .ok next) :
    Begins ctx.settings.limit ⟨S, expected, found⟩ next.view := by
  obtain ⟨m, made, rfl⟩ := push_eq_ok_iff.1 pushed
  subst spelled
  exact .leaf readable few made

theorem begins_of_multi (readsPoints : ctx.settings.decodeKey = Key.ofBytes)
    (started : multi ctx ⟨rest, expected, found⟩ = .ok next) :
    Begins ctx.settings.limit ⟨.op .checkMultiSig :: rest.map Token.symbol, expected, found⟩
      next.view := by
  unfold multi at started
  split at started
  · next n offset tail same =>
    obtain rfl : rest = _ := same
    split at started
    · cases started
    · next few =>
      obtain ⟨⟨keys, others⟩, taken, finished⟩ := bind_eq_ok_iff.1 started
      obtain ⟨before, ps, rfl, size, spelled, rfl⟩ := (takeKeys_eq_ok_iff readsPoints).1 taken
      simp only at finished
      split at finished
      · next k offset' tail =>
        rw [List.append_nil] at finished
        refine begins_of_pushLeaf ?_ ?_ ?_ finished
        · have bound : n.toNat < 2 ^ 32 := n.toNat_lt
          exact ⟨k.toNat_lt, by simpa [size] using bound, by simp⟩
        · simpa [Leaf.FewKeys, size] using few
        · simp [spelled_multi, size, spelled]
      · exact (unexpected_ne_ok finished).elim
  · exact (unexpected_ne_ok started).elim

theorem begins_of_timeLock {l : UInt32 → Leaf} {o : Opcode}
    (readable : ∀ n, (l n).Readable) (few : ∀ n, (l n).FewKeys)
    (spelled : ∀ n, (Fragment.leaf (l n)).spelled = [.op o, .number n])
    (started : timeLock ctx ⟨rest, expected, found⟩ l = .ok next) :
    Begins ctx.settings.limit ⟨.op o :: rest.map Token.symbol, expected, found⟩ next.view := by
  unfold timeLock at started
  split at started
  · next n offset tail same =>
    obtain rfl : rest = _ := same
    exact begins_of_pushLeaf (readable n) (few n) (by simp [spelled n]) started
  · exact (unexpected_ne_ok started).elim

theorem imageSymbol_of_width {f : HashFunction} {width : Nat} (same : width = f.width)
    (image : Digest width) {s : Symbol}
    (pushed : (∃ h : width = 20, s = .push20 (h ▸ image)) ∨
      (∃ h : width = 32, s = .push32 (h ▸ image))) :
    imageSymbol f (same ▸ image) = s := by
  subst same
  rcases pushed with ⟨h, rfl⟩ | ⟨h, rfl⟩ <;> cases f <;> first | rfl | cases h

/-- A hash lock that was recognised is found. -/
theorem hashLock_spelled {width : Nat} {image : Digest width} {wanted : ScriptWanted} {s : Symbol}
    {tokens rest : List Token} {l : Leaf}
    (pushed : (∃ h : width = 20, s = .push20 (h ▸ image)) ∨
      (∃ h : width = 32, s = .push32 (h ▸ image)))
    (recognised : hashLock image wanted tokens = .ok (l, rest)) :
    ∃ f image, l = .hashLock f image ∧
      .op .equal :: s :: tokens.map Token.symbol
        = (Fragment.leaf (.hashLock f image)).spelled ++ rest.map Token.symbol := by
  obtain ⟨f, same, before, rfl, rfl, spelled⟩ := hashLock_eq_ok_iff.1 recognised
  refine ⟨f, _, rfl, ?_⟩
  rw [spelled_hashLock, imageSymbol_of_width same image pushed, List.map_append, spelled]
  rfl

theorem begins_of_equal (started : equal ctx ⟨rest, expected, found⟩ = .ok next) :
    Begins ctx.settings.limit ⟨.op .equal :: rest.map Token.symbol, expected, found⟩ next.view := by
  unfold equal at started
  split at started
  · next hash offset tail same =>
    obtain rfl : rest = _ := same
    obtain ⟨⟨l, others⟩, recognised, pushed⟩ := bind_eq_ok_iff.1 started
    obtain ⟨f, image, rfl, spelled⟩ := hashLock_spelled (.inl ⟨rfl, rfl⟩) recognised
    exact begins_of_pushLeaf (l := .hashLock f image) trivial trivial spelled pushed
  · next hash offset tail same =>
    obtain rfl : rest = _ := same
    obtain ⟨⟨l, others⟩, recognised, pushed⟩ := bind_eq_ok_iff.1 started
    obtain ⟨f, image, rfl, spelled⟩ := hashLock_spelled (.inr ⟨rfl, rfl⟩) recognised
    exact begins_of_pushLeaf (l := .hashLock f image) trivial trivial spelled pushed
  · next k offset tail same =>
    obtain rfl : rest = _ := same
    cases started
    exact .thresh
  · exact (unexpected_ne_ok started).elim

theorem begins_of_verifyHash {f : HashFunction} {image : Digest f.width} {S : List Symbol}
    (spelled : S = (Fragment.leaf (.hashLock f image)).spelled ++ rest.map Token.symbol)
    (pushed : pushLeaf ctx ⟨rest, .wrap .verify :: expected, found⟩ (.hashLock f image)
      = .ok next) :
    Begins ctx.settings.limit ⟨.op .verify :: S, expected, found⟩ next.view := by
  obtain ⟨m, made, rfl⟩ := push_eq_ok_iff.1 pushed
  subst spelled
  exact .verifyHash made

theorem begins_of_verifyEqual (started : verifyEqual ctx ⟨rest, expected, found⟩ = .ok next) :
    Begins ctx.settings.limit
      ⟨.op .verify :: .op .equal :: rest.map Token.symbol, expected, found⟩ next.view := by
  simp only [verifyEqual] at started
  split at started
  · next hash offset tail =>
    split at started
    · next isKey =>
      obtain ⟨o₁, others, rfl⟩ := exists_of_nextIs isKey.1
      obtain ⟨o₂, others, rfl⟩ := exists_of_nextIs isKey.2
      refine begins_of_pushLeaf (l := .pkHash hash) trivial trivial ?_ started
      rw [spelled_pkHash]
      rfl
    · obtain ⟨⟨l, others⟩, recognised, pushed⟩ := bind_eq_ok_iff.1 started
      obtain ⟨f, image, rfl, spelled⟩ := hashLock_spelled (.inl ⟨rfl, rfl⟩) recognised
      exact begins_of_verifyHash spelled pushed
  · next hash offset tail =>
    obtain ⟨⟨l, others⟩, recognised, pushed⟩ := bind_eq_ok_iff.1 started
    obtain ⟨f, image, rfl, spelled⟩ := hashLock_spelled (.inr ⟨rfl, rfl⟩) recognised
    exact begins_of_verifyHash spelled pushed
  · cases started
    exact .verifyThresh
  · exact (unexpected_ne_ok started).elim

theorem spelled_older (n : UInt32) :
    (Fragment.leaf (.older n)).spelled = [.op .checkSequenceVerify, .number n] := by
  rw [Fragment.spelled, Fragment.symbols_eq, Fragment.instructions]
  simp [Leaf.instructions, Instruction.symbols, Opcode.simpler]

theorem spelled_after (n : UInt32) :
    (Fragment.leaf (.after n)).spelled = [.op .checkLockTimeVerify, .number n] := by
  rw [Fragment.spelled, Fragment.symbols_eq, Fragment.instructions]
  simp [Leaf.instructions, Instruction.symbols, Opcode.simpler]

theorem spelled_pk (p : Point) :
    (Fragment.leaf (.pk (.point p))).spelled = [pointSymbol p] := by
  rw [Fragment.spelled, Fragment.symbols_eq, Fragment.instructions]
  rfl

/-- The decoder takes the last symbols of a fragment by the rules. -/
theorem begins_of_fragment {st : State} (readsPoints : ctx.settings.decodeKey = Key.ofBytes)
    (started : fragment ctx st = .ok next) : Begins ctx.settings.limit st.view next.view := by
  obtain ⟨tokens, expected, found⟩ := st
  cases tokens with
  | nil => simp [fragment] at started
  | cons t rest =>
    obtain ⟨symbol, offset⟩ := t
    cases symbol with
    | op o =>
      cases o with
      | checkSig => cases started; exact .check
      | zeroNotEqual => cases started; exact .zeroNotEqual
      | verify =>
        simp only [fragment] at started
        split at started
        · next equal =>
          obtain ⟨offset', tail, rfl⟩ := exists_of_nextIs equal
          exact begins_of_verifyEqual started
        · next other =>
          cases started
          refine .verify ?_
          rwa [nextIs_iff] at other
      | checkSequenceVerify =>
        exact begins_of_timeLock (l := .older) (fun _ => trivial) (fun _ => trivial)
          spelled_older started
      | checkLockTimeVerify =>
        exact begins_of_timeLock (l := .after) (fun _ => trivial) (fun _ => trivial)
          spelled_after started
      | equal => exact begins_of_equal started
      | checkMultiSig => exact begins_of_multi readsPoints started
      | endIf => cases started; exact .endIf
      | boolAnd => cases started; exact .andB
      | boolOr => cases started; exact .orB
      | _ => simp [fragment] at started
    | number n =>
      simp only [fragment] at started
      split at started
      · next zero =>
        subst zero
        exact begins_of_pushLeaf (l := .zero) trivial trivial rfl started
      · split at started
        · next one =>
          subst one
          exact begins_of_pushLeaf (l := .one) trivial trivial rfl started
        · exact (unexpected_ne_ok started).elim
    | push20 data => simp [fragment] at started
    | push32 data => simp [fragment] at started
    | push33 data =>
      obtain ⟨k, decoded, pushed⟩ := bind_eq_ok_iff.1 started
      obtain ⟨p, rfl, symbol⟩ := (decodeKey_eq_ok_iff readsPoints).1 decoded
      refine begins_of_pushLeaf (l := .pk (.point p)) ⟨p, rfl⟩ trivial ?_ pushed
      rw [spelled_pk, ← symbol]
      rfl

variable {tokens : List Token} {S : List Symbol}

theorem pushLeaf_of_made {l : Leaf} {m : Checked} (made : Checked.leaf ctx.settings.limit l = .ok m)
    (st : State) : pushLeaf ctx st l = .ok { st with found := m :: st.found } :=
  push_eq_ok_iff.2 ⟨m, made, rfl⟩

/-- The tokens of the image of a hash lock and of what stands before it are recognised. -/
theorem exists_hashLock {f : HashFunction} {image : Digest f.width}
    (same : tokens.map Token.symbol = (Fragment.leaf (.hashLock f image)).spelled ++ S) :
    ∃ o₁ o₂ more rest, tokens = ⟨.op .equal, o₁⟩ :: ⟨imageSymbol f image, o₂⟩ :: more ∧
      more.map Token.symbol = [.op f.opcode, .op .verify, .op .equal, .number 32, .op .size] ++ S ∧
      rest.map Token.symbol = S ∧
      ∀ wanted, hashLock image wanted more = .ok (.hashLock f image, rest) := by
  rw [spelled_hashLock] at same
  obtain ⟨o₁, tail, rfl, same₁⟩ := exists_token same
  obtain ⟨o₂, more, rfl, same₂⟩ := exists_token same₁
  obtain ⟨before, rest, rfl, spelled, rfl⟩ := List.map_eq_append_iff.1 same₂
  refine ⟨o₁, o₂, _, rest, rfl, same₂, rfl, fun wanted => ?_⟩
  exact hashLock_eq_ok_iff.2 ⟨f, rfl, before, rfl, rfl, spelled⟩

theorem exists_points {keys : List Key} (points : ∀ key ∈ keys, ∃ p, key = .point p) :
    ∃ ps : List Point, keys = ps.map .point := by
  induction keys with
  | nil => exact ⟨[], rfl⟩
  | cons key keys ih =>
    obtain ⟨p, rfl⟩ := points key List.mem_cons_self
    obtain ⟨ps, rfl⟩ := ih fun key member => points key (List.mem_cons_of_mem _ member)
    exact ⟨p :: ps, rfl⟩

theorem fragment_leaf (readsPoints : ctx.settings.decodeKey = Key.ofBytes) {l : Leaf} {m : Checked}
    (readable : l.Readable) (few : l.FewKeys) (made : Checked.leaf ctx.settings.limit l = .ok m)
    (same : tokens.map Token.symbol = (Fragment.leaf l).spelled ++ S) :
    ∃ rest, rest.map Token.symbol = S ∧
      fragment ctx ⟨tokens, expected, found⟩ = .ok ⟨rest, expected, m :: found⟩ := by
  have pushed := pushLeaf_of_made made
  cases l with
  | zero =>
    obtain ⟨o, rest, rfl, tail⟩ := exists_token same
    exact ⟨rest, tail, pushed ⟨rest, expected, found⟩⟩
  | one =>
    obtain ⟨o, rest, rfl, tail⟩ := exists_token same
    exact ⟨rest, tail, pushed ⟨rest, expected, found⟩⟩
  | pk key =>
    obtain ⟨p, rfl⟩ := readable
    rw [spelled_pk] at same
    obtain ⟨o, rest, rfl, tail⟩ := exists_token same
    refine ⟨rest, tail, bind_eq_ok_iff.2 ⟨.point p, ?_, pushed ⟨rest, expected, found⟩⟩⟩
    exact (decodeKey_eq_ok_iff readsPoints).2 ⟨p, rfl, rfl⟩
  | pkHash hash =>
    rw [spelled_pkHash] at same
    obtain ⟨o₁, _, rfl, same₁⟩ := exists_token same
    obtain ⟨o₂, _, rfl, same₂⟩ := exists_token same₁
    obtain ⟨o₃, _, rfl, same₃⟩ := exists_token same₂
    obtain ⟨o₄, _, rfl, same₄⟩ := exists_token same₃
    obtain ⟨o₅, rest, rfl, tail⟩ := exists_token same₄
    exact ⟨rest, tail, pushed ⟨rest, expected, found⟩⟩
  | after n =>
    rw [spelled_after] at same
    obtain ⟨o₁, _, rfl, same₁⟩ := exists_token same
    obtain ⟨o₂, rest, rfl, tail⟩ := exists_token same₁
    exact ⟨rest, tail, pushed ⟨rest, expected, found⟩⟩
  | older n =>
    rw [spelled_older] at same
    obtain ⟨o₁, _, rfl, same₁⟩ := exists_token same
    obtain ⟨o₂, rest, rfl, tail⟩ := exists_token same₁
    exact ⟨rest, tail, pushed ⟨rest, expected, found⟩⟩
  | hashLock f image =>
    obtain ⟨o₁, o₂, more, rest, rfl, -, tail, recognised⟩ := exists_hashLock same
    refine ⟨rest, tail, ?_⟩
    cases f <;> exact bind_eq_ok_iff.2 ⟨_, recognised _, pushed ⟨rest, expected, found⟩⟩
  | multi k keys =>
    obtain ⟨small, count, points⟩ := readable
    obtain ⟨ps, rfl⟩ := exists_points points
    have range : 1 ≤ k := by
      have typed := m.typed
      rw [(Checked.leaf_eq_ok_iff.1 made).2] at typed
      exact (Facts.checkThreshold_iff.1 (Fragment.facts?_leaf_iff.1 typed).1).1
    rw [List.length_map] at count
    rw [spelled_multi, List.cons_append, List.cons_append, List.append_assoc] at same
    obtain ⟨o₁, _, rfl, same₁⟩ := exists_token same
    obtain ⟨o₂, _, rfl, same₂⟩ := exists_token same₁
    obtain ⟨before, _, rfl, spelled, same₃⟩ := List.map_eq_append_iff.1 same₂
    obtain ⟨o₃, rest, rfl, tail⟩ := exists_token same₃
    have size : (UInt32.ofNat ps.length).toNat = ps.length := UInt32.toNat_ofNat_of_lt' count
    have threshold : (((UInt32.ofNat k.toNat).toNat : Nat) : Int) = k := by
      rw [UInt32.toNat_ofNat_of_lt' small]
      omega
    have allowed : ¬ (UInt32.ofNat ps.length).toNat > maxMultiKeys := by
      simpa [size, Leaf.FewKeys] using few
    have taken : takeKeys ctx (UInt32.ofNat ps.length).toNat []
        (before ++ ⟨.number (UInt32.ofNat k.toNat), o₃⟩ :: rest) = .ok (ps.map .point, _) :=
      (takeKeys_eq_ok_iff readsPoints).2 ⟨before, ps, rfl, size.symm, spelled, by simp⟩
    refine ⟨rest, tail, ?_⟩
    simp only [fragment, multi]
    rw [if_neg allowed]
    refine bind_eq_ok_iff.2 ⟨_, taken, ?_⟩
    simp only [threshold]
    exact pushed ⟨rest, expected, found⟩

/-- What the rules allow, the decoder does. -/
theorem exists_fragment {st : State} {v : View} (readsPoints : ctx.settings.decodeKey = Key.ofBytes)
    (begins : Begins ctx.settings.limit st.view v) :
    ∃ next, fragment ctx st = .ok next ∧ next.view = v := by
  obtain ⟨tokens, expected, found⟩ := st
  generalize same : tokens.map Token.symbol = S at begins
  simp only [State.view, same] at begins
  cases begins with
  | leaf readable few made =>
    obtain ⟨rest, rfl, started⟩ := fragment_leaf readsPoints readable few made same
    exact ⟨_, started, rfl⟩
  | check =>
    obtain ⟨o, rest, rfl, rfl⟩ := exists_token same
    exact ⟨_, rfl, rfl⟩
  | zeroNotEqual =>
    obtain ⟨o, rest, rfl, rfl⟩ := exists_token same
    exact ⟨_, rfl, rfl⟩
  | verify other =>
    obtain ⟨o, rest, rfl, rfl⟩ := exists_token same
    exact ⟨_, if_neg fun equal => other (nextIs_iff.1 equal), rfl⟩
  | @verifyHash f image m _ _ _ made =>
    obtain ⟨o, rest, rfl, same'⟩ := exists_token same
    obtain ⟨o₁, o₂, more, rest, rfl, spelled, rfl, recognised⟩ := exists_hashLock same'
    have notKey : ¬ (nextIs .hash160 more = true ∧ nextIs .dup (more.drop 1) = true) := by
      rintro ⟨-, dup⟩
      rw [nextIs_iff, List.map_drop, spelled] at dup
      cases dup
    have pushed := pushLeaf_of_made made ⟨rest, .wrap .verify :: expected, found⟩
    refine ⟨⟨rest, .wrap .verify :: expected, _ :: found⟩, ?_, rfl⟩
    cases f with
    | sha256 => exact bind_eq_ok_iff.2 ⟨_, recognised _, pushed⟩
    | hash256 => exact bind_eq_ok_iff.2 ⟨_, recognised _, pushed⟩
    | ripemd160 => exact (if_neg notKey).trans (bind_eq_ok_iff.2 ⟨_, recognised _, pushed⟩)
    | hash160 => exact (if_neg notKey).trans (bind_eq_ok_iff.2 ⟨_, recognised _, pushed⟩)
  | thresh =>
    obtain ⟨o₁, _, rfl, same'⟩ := exists_token same
    obtain ⟨o₂, rest, rfl, rfl⟩ := exists_token same'
    exact ⟨_, rfl, rfl⟩
  | verifyThresh =>
    obtain ⟨o₁, _, rfl, same₁⟩ := exists_token same
    obtain ⟨o₂, _, rfl, same₂⟩ := exists_token same₁
    obtain ⟨o₃, rest, rfl, rfl⟩ := exists_token same₂
    exact ⟨_, rfl, rfl⟩
  | endIf =>
    obtain ⟨o, rest, rfl, rfl⟩ := exists_token same
    exact ⟨_, rfl, rfl⟩
  | andB =>
    obtain ⟨o, rest, rfl, rfl⟩ := exists_token same
    exact ⟨_, rfl, rfl⟩
  | orB =>
    obtain ⟨o, rest, rfl, rfl⟩ := exists_token same
    exact ⟨_, rfl, rfl⟩

end Fragments

/-! ## Expectations -/

variable {ctx : Context}

/-- The decoder meets expectations by the rules. -/
theorem meets_of_meet (readsPoints : ctx.settings.decodeKey = Key.ofBytes) {e : Expectation}
    {st next : State} (met : meet ctx st e = .ok next) :
    Meets ctx.settings.limit e st.view next.view := by
  obtain ⟨tokens, expected, found⟩ := st
  cases e with
  | fragment => exact .fragment (begins_of_fragment readsPoints met)
  | below =>
    simp only [meet] at met
    split at met
    · next alt =>
      obtain ⟨offset, rest, rfl⟩ := exists_of_nextIs alt
      cases met
      exact .belowAlt
    · next other =>
      cases met
      exact .belowSwap fun alt => other (nextIs_iff.2 alt)
  | maybeSwap =>
    simp only [meet] at met
    split at met
    · next swap =>
      obtain ⟨offset, rest, rfl⟩ := exists_of_nextIs swap
      obtain ⟨x, found, m, rfl, made, rfl⟩ := pushWrap_eq_ok_iff.1 met
      exact .swap made
    · next other =>
      cases met
      exact .noSwap fun swap => other (nextIs_iff.2 swap)
  | maybeAndV =>
    simp only [meet] at met
    split at met
    · next ends =>
      cases met
      exact .andVEnds (endsAndV_iff.1 ends)
    · next goesOn =>
      exact .andVGoesOn (fun ends => goesOn (endsAndV_iff.2 ends))
        (begins_of_fragment readsPoints met)
  | alt =>
    obtain ⟨rest, taken, pushed⟩ := bind_eq_ok_iff.1 met
    obtain ⟨offset, rfl⟩ := expectOp_eq_ok_iff.1 taken
    obtain ⟨x, found, m, rfl, made, rfl⟩ := pushWrap_eq_ok_iff.1 pushed
    exact .alt made
  | wrap w =>
    obtain ⟨x, found, m, rfl, made, rfl⟩ := pushWrap_eq_ok_iff.1 met
    exact .wrap made
  | pair op =>
    obtain ⟨x, y, found, m, rfl, made, rfl⟩ := pushPair_eq_ok_iff.1 met
    exact .pair made
  | andV =>
    obtain ⟨st, pushed, ⟨⟩⟩ := bind_eq_ok_iff.1 met
    obtain ⟨x, y, found, m, rfl, made, rfl⟩ := pushPair_eq_ok_iff.1 pushed
    exact .andV made
  | andor =>
    obtain ⟨x, y, z, found, m, rfl, made, rfl⟩ := pushAndor_eq_ok_iff.1 met
    exact .andor made
  | moreSubs k n =>
    simp only [meet] at met
    split at met
    · next add =>
      obtain ⟨offset, rest, rfl⟩ := exists_of_nextIs add
      cases met
      exact .anotherSub
    · next other =>
      cases met
      exact .firstSub fun add => other (nextIs_iff.2 add)
  | thresh k n =>
    obtain ⟨subs, found, m, rfl, rfl, made, rfl⟩ := pushThresh_eq_ok_iff.1 met
    exact .thresh made
  | endIf =>
    simp only [meet, endIf] at met
    split at met
    · cases met
      exact .elseBody
    · split at met
      · cases met
        exact .dupIf
      · obtain ⟨rest, taken, made⟩ := bind_eq_ok_iff.1 met
        obtain ⟨offset, rfl⟩ := expectOp_eq_ok_iff.1 taken
        cases made
        exact .nonZero
      · exact (unexpected_ne_ok met).elim
    · cases met
      exact .notIf
    · exact (unexpected_ne_ok met).elim
  | beforeNotIf =>
    simp only [meet] at met
    split at met
    · next ifDup =>
      obtain ⟨offset, rest, rfl⟩ := exists_of_nextIs ifDup
      cases met
      exact .orD
    · next other =>
      cases met
      exact .orC fun ifDup => other (nextIs_iff.2 ifDup)
  | beforeElse =>
    simp only [meet] at met
    split at met
    · next isIf =>
      obtain ⟨offset, rest, rfl⟩ := exists_of_nextIs isIf
      obtain ⟨x, y, found, m, rfl, made, rfl⟩ := pushPair_eq_ok_iff.1 met
      exact .orI made
    · split at met
      · next isNotIf =>
        obtain ⟨offset, rest, rfl⟩ := exists_of_nextIs isNotIf
        cases met
        exact .elseNotIf
      · exact (unexpected_ne_ok met).elim

theorem pushWrap_of_made {w : Wrapper} {x m : Checked}
    (made : Checked.wrap ctx.settings.limit w x = .ok m) (tokens : List Token)
    (expected : List Expectation) (found : List Checked) :
    pushWrap ctx ⟨tokens, expected, x :: found⟩ w = .ok ⟨tokens, expected, m :: found⟩ :=
  pushWrap_eq_ok_iff.2 ⟨x, found, m, rfl, made, rfl⟩

theorem pushPair_of_made {op : Combinator} {x y m : Checked}
    (made : Checked.pair ctx.settings.limit op x y = .ok m) (tokens : List Token)
    (expected : List Expectation) (found : List Checked) :
    pushPair ctx ⟨tokens, expected, x :: y :: found⟩ op = .ok ⟨tokens, expected, m :: found⟩ :=
  pushPair_eq_ok_iff.2 ⟨x, y, found, m, rfl, made, rfl⟩

/-- Where the rules allow to meet an expectation, the decoder does so. -/
theorem exists_meet (readsPoints : ctx.settings.decodeKey = Key.ofBytes) {e : Expectation}
    {st : State} {v : View} (rule : Meets ctx.settings.limit e st.view v) :
    ∃ next, meet ctx st e = .ok next ∧ next.view = v := by
  obtain ⟨tokens, expected, found⟩ := st
  generalize same : tokens.map Token.symbol = S at rule
  simp only [State.view, same] at rule
  cases rule with
  | fragment begins => exact exists_fragment readsPoints (by rwa [State.view, same])
  | belowAlt =>
    obtain ⟨o, rest, rfl, rfl⟩ := exists_token same
    exact ⟨_, rfl, rfl⟩
  | belowSwap other =>
    subst same
    exact ⟨_, if_neg fun alt => other (nextIs_iff.1 alt), rfl⟩
  | swap made =>
    obtain ⟨o, rest, rfl, rfl⟩ := exists_token same
    exact ⟨_, pushWrap_of_made made rest _ _, rfl⟩
  | noSwap other =>
    subst same
    exact ⟨_, if_neg fun swap => other (nextIs_iff.1 swap), rfl⟩
  | andVEnds ends =>
    subst same
    exact ⟨_, if_pos (endsAndV_iff.2 ends), rfl⟩
  | andVGoesOn goesOn begins =>
    subst same
    have rule : Begins ctx.settings.limit (State.view ⟨tokens, .andV :: expected, found⟩) v :=
      begins
    obtain ⟨next, started, view⟩ := exists_fragment readsPoints rule
    exact ⟨next, (if_neg fun ends => goesOn (endsAndV_iff.1 ends)).trans started, view⟩
  | alt made =>
    obtain ⟨o, rest, rfl, rfl⟩ := exists_token same
    refine ⟨_, bind_eq_ok_iff.2 ⟨rest, ?_, pushWrap_of_made made rest _ _⟩, rfl⟩
    exact expectOp_eq_ok_iff.2 ⟨o, rfl⟩
  | wrap made =>
    subst same
    exact ⟨_, pushWrap_of_made made tokens _ _, rfl⟩
  | pair made =>
    subst same
    exact ⟨_, pushPair_of_made made tokens _ _, rfl⟩
  | andV made =>
    subst same
    exact ⟨_, bind_eq_ok_iff.2 ⟨_, pushPair_of_made made tokens _ _, rfl⟩, rfl⟩
  | @andor x y z m _ _ found made =>
    subst same
    refine ⟨⟨tokens, expected, m :: found⟩, ?_, rfl⟩
    rw [meet, pushAndor_eq_ok_iff]
    exact ⟨x, y, z, found, m, rfl, made, rfl⟩
  | anotherSub =>
    obtain ⟨o, rest, rfl, rfl⟩ := exists_token same
    exact ⟨_, rfl, rfl⟩
  | firstSub other =>
    subst same
    exact ⟨_, if_neg fun add => other (nextIs_iff.1 add), rfl⟩
  | thresh made =>
    subst same
    exact ⟨_, pushThresh_eq_ok_iff.2 ⟨_, _, _, rfl, rfl, made, rfl⟩, rfl⟩
  | elseBody =>
    obtain ⟨o, rest, rfl, rfl⟩ := exists_token same
    exact ⟨_, rfl, rfl⟩
  | dupIf =>
    obtain ⟨o₁, _, rfl, same'⟩ := exists_token same
    obtain ⟨o₂, rest, rfl, rfl⟩ := exists_token same'
    exact ⟨_, rfl, rfl⟩
  | nonZero =>
    obtain ⟨o₁, _, rfl, same₁⟩ := exists_token same
    obtain ⟨o₂, _, rfl, same₂⟩ := exists_token same₁
    obtain ⟨o₃, rest, rfl, rfl⟩ := exists_token same₂
    exact ⟨_, rfl, rfl⟩
  | notIf =>
    obtain ⟨o, rest, rfl, rfl⟩ := exists_token same
    exact ⟨_, rfl, rfl⟩
  | orD =>
    obtain ⟨o, rest, rfl, rfl⟩ := exists_token same
    exact ⟨_, rfl, rfl⟩
  | orC other =>
    subst same
    exact ⟨_, if_neg fun ifDup => other (nextIs_iff.1 ifDup), rfl⟩
  | orI made =>
    obtain ⟨o, rest, rfl, rfl⟩ := exists_token same
    exact ⟨_, pushPair_of_made made rest _ _, rfl⟩
  | elseNotIf =>
    obtain ⟨o, rest, rfl, rfl⟩ := exists_token same
    exact ⟨_, rfl, rfl⟩

end LockScript.Decoder
