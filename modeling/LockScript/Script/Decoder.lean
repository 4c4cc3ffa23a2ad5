import LockScript.Fragment.Build
import LockScript.Fragment.Script
import LockScript.Script.Token

/-!
Decoding scripts back into fragments.

A script is read from its end, where the opcode stands that says what kind of fragment it is. The
decoder keeps a stack of what it expects next and a stack of the fragments found so far; the top of
each is the head of its list. Fragments come out in reverse, so the first part of a fragment is found
last and lies on top.

A sequence of `and_v` comes out nested to the right, since nothing in a script says how it was nested.
-/

namespace LockScript.Decoder

/-- What the decoder expects next. -/
inductive Expectation where
  /-- A fragment. -/
  | fragment
  /-- A fragment that works one element below the top: `a:X` or `s:X`. -/
  | below
  /-- Perhaps the SWAP of `s:X`. -/
  | maybeSwap
  /-- Perhaps the first part of an `and_v` whose second part was just found. -/
  | maybeAndV
  /-- The TOALTSTACK of `a:X`. -/
  | alt
  /-- The end of a wrapper around the top fragment. -/
  | wrap (w : Wrapper)
  /-- The end of a combination of the top two fragments. -/
  | pair (op : Combinator)
  /-- The end of an `and_v`, which may be the second part of another. -/
  | andV
  /-- The end of an `andor` of the top three fragments. -/
  | andor
  /-- More parts of a threshold of `k`, of which `n` were found. -/
  | moreSubs (k n : Nat)
  /-- The end of a threshold of `k` over the top `n` fragments. -/
  | thresh (k n : Nat)
  /-- What stands before the body that ENDIF ends. -/
  | endIf
  /-- What stands before NOTIF: the first part of an `or_c` or `or_d`. -/
  | beforeNotIf
  /-- What stands before the body that ELSE ends. -/
  | beforeElse
  deriving DecidableEq, Repr

/-- The tokens left, the last of the script first, and the two stacks. -/
structure State where
  tokens : List Token
  expected : List Expectation
  found : List Checked

/-- What a decoder is given: the reader's settings and the length of the script. -/
structure Context where
  settings : Settings
  size : Nat

/-- The failure for `cause` at `offset`. -/
def scriptError {α : Type} (cause : ScriptCause) (offset : Nat) : Except Error α :=
  .error ⟨.script cause, some offset⟩

/-- The failure to find what is wanted in front of the tokens left. -/
def unexpected {α : Type} (tokens : List Token) (wanted : ScriptWanted) : Except Error α :=
  match tokens with
  | [] => scriptError (.unexpected none wanted) 0
  | t :: _ => scriptError (.unexpected (some t.symbol) wanted) t.offset

/-- The tokens after an opcode that has to come next. -/
def expectOp (o : Opcode) (tokens : List Token) : Except Error (List Token) :=
  match tokens with
  | ⟨.op o', offset⟩ :: rest =>
    if o' = o then .ok rest else unexpected (⟨.op o', offset⟩ :: rest) (.op o)
  | _ => unexpected tokens (.op o)

/-- The tokens after a number that has to come next. -/
def expectNumber (n : UInt32) (tokens : List Token) : Except Error (List Token) :=
  match tokens with
  | ⟨.number n', offset⟩ :: rest =>
    if n' = n then .ok rest else unexpected (⟨.number n', offset⟩ :: rest) (.number n)
  | _ => unexpected tokens (.number n)

/-- Whether the next token is the given opcode. -/
def nextIs (o : Opcode) (tokens : List Token) : Bool :=
  match tokens with
  | t :: _ => t.symbol = .op o
  | [] => false

/-- Whether no `and_v` can go on with the tokens left. -/
def endsAndV (tokens : List Token) : Bool :=
  tokens.isEmpty || nextIs .ifOp tokens || nextIs .notIf tokens || nextIs .elseOp tokens
    || nextIs .toAltStack tokens || nextIs .swap tokens

/-- The offset that a fragment found now is put down to: that of the next token. -/
def offset (ctx : Context) (tokens : List Token) : Nat :=
  match tokens with
  | t :: _ => t.offset
  | [] => ctx.size

/-- The state with one more fragment found. -/
def push (ctx : Context) (st : State) (made : Except Error Checked) : Except Error State :=
  match located (offset ctx st.tokens) made with
  | .ok m => .ok { st with found := m :: st.found }
  | .error e => .error e

/-- The state with one more leaf found. -/
def pushLeaf (ctx : Context) (st : State) (l : Leaf) : Except Error State :=
  push ctx st (Checked.leaf ctx.settings.limit l)

/-- The state with the top fragment wrapped. -/
def pushWrap (ctx : Context) (st : State) (w : Wrapper) : Except Error State :=
  match st.found with
  | x :: found => push ctx { st with found } (Checked.wrap ctx.settings.limit w x)
  | _ => unexpected st.tokens .part

/-- The state with the top two fragments combined, the top one being the first part. -/
def pushPair (ctx : Context) (st : State) (op : Combinator) : Except Error State :=
  match st.found with
  | x :: y :: found => push ctx { st with found } (Checked.pair ctx.settings.limit op x y)
  | _ => unexpected st.tokens .part

/-- The state with the top three fragments combined. In X NOTIF Z ELSE Y ENDIF the second part stands
last. -/
def pushAndor (ctx : Context) (st : State) : Except Error State :=
  match st.found with
  | x :: z :: y :: found => push ctx { st with found } (Checked.andor ctx.settings.limit x y z)
  | _ => unexpected st.tokens .part

/-- The state with a threshold over the top `n` fragments. -/
def pushThresh (ctx : Context) (st : State) (k n : Nat) : Except Error State :=
  if st.found.length < n then unexpected st.tokens .thresholdChild
  else
    push ctx { st with found := st.found.drop n }
      (Checked.thresh ctx.settings.limit k (st.found.take n))

/-- The hash functions. -/
def hashFunctions : List HashFunction := [.sha256, .hash256, .ripemd160, .hash160]

/-- The hash function whose opcode comes next, if its digests have the given width. -/
def hashFunction? (width : Nat) (tokens : List Token) : Option HashFunction :=
  hashFunctions.find? fun f => f.width = width && nextIs f.opcode tokens

/-- The tokens before the hash of a hash lock: SIZE 32 EQUALVERIFY and the hash opcode. -/
def hashLockStart (tokens : List Token) : Except Error (List Token) := do
  let tokens ← expectOp .verify (tokens.drop 1)
  let tokens ← expectOp .equal tokens
  let tokens ← expectNumber 32 tokens
  expectOp .size tokens

/-- The hash lock whose hash was just read, and the tokens before it. -/
def hashLock {width : Nat} (image : Digest width) (wanted : ScriptWanted) (tokens : List Token) :
    Except Error (Leaf × List Token) :=
  if tokens.isEmpty then unexpected tokens .hashOpcode
  else match hashFunction? width tokens with
    | none => unexpected tokens wanted
    | some f =>
      if h : width = f.width then do
        let rest ← hashLockStart tokens
        .ok (.hashLock f (h ▸ image), rest)
      else unexpected tokens wanted

/-- The key in a push of 33 bytes. -/
def decodeKey (ctx : Context) (data : Digest 33) (offset : Nat) : Except Error Key :=
  match ctx.settings.decodeKey data.bytes with
  | .ok k => .ok k
  | .error reason => scriptError (.badKey (.push33 data) reason) offset

/-- The `n` keys that come next, in front of the `keys` after them. -/
def takeKeys (ctx : Context) : (n : Nat) → (keys : List Key) → List Token →
    Except Error (List Key × List Token)
  | 0, keys, tokens => .ok (keys, tokens)
  | n + 1, keys, ⟨.push33 data, offset⟩ :: rest => do
    let k ← decodeKey ctx data offset
    takeKeys ctx n (k :: keys) rest
  | _ + 1, _, tokens => unexpected tokens .key

/-- The `thresh_m` that a CHECKMULTISIG ends. -/
def multi (ctx : Context) (st : State) : Except Error State :=
  match st.tokens with
  | ⟨.number n, offset⟩ :: rest =>
    if n.toNat > maxMultiKeys then scriptError (.tooManyKeys n.toNat) offset
    else do
      let (keys, rest) ← takeKeys ctx n.toNat [] rest
      match rest with
      | ⟨.number k, _⟩ :: rest => pushLeaf ctx { st with tokens := rest } (.multi k.toNat keys)
      | _ => unexpected rest .threshold
  | _ => unexpected st.tokens .keyCount

/-- What EQUALVERIFY ends: a `pk_h`, or a hash lock or threshold within `v:`. -/
def verifyEqual (ctx : Context) (st : State) : Except Error State :=
  let verified := { st with expected := .wrap .verify :: st.expected }
  match st.tokens with
  | ⟨.push20 hash, _⟩ :: rest =>
    if nextIs .hash160 rest ∧ nextIs .dup (rest.drop 1) then
      pushLeaf ctx { st with tokens := rest.drop 2 } (.pkHash hash)
    else do
      let (l, rest) ← hashLock hash .hashOpcode20 rest
      pushLeaf ctx { verified with tokens := rest } l
  | ⟨.push32 hash, _⟩ :: rest => do
    let (l, rest) ← hashLock hash .hashOpcode32 rest
    pushLeaf ctx { verified with tokens := rest } l
  | ⟨.number k, _⟩ :: rest =>
    .ok { verified with tokens := rest, expected := .moreSubs k.toNat 0 :: verified.expected }
  | _ => unexpected st.tokens .hashOrThreshold

/-- What EQUAL ends: a hash lock or a threshold. -/
def equal (ctx : Context) (st : State) : Except Error State :=
  match st.tokens with
  | ⟨.push20 hash, _⟩ :: rest => do
    let (l, rest) ← hashLock hash .hashOpcode20 rest
    pushLeaf ctx { st with tokens := rest } l
  | ⟨.push32 hash, _⟩ :: rest => do
    let (l, rest) ← hashLock hash .hashOpcode32 rest
    pushLeaf ctx { st with tokens := rest } l
  | ⟨.number k, _⟩ :: rest =>
    .ok { st with tokens := rest, expected := .moreSubs k.toNat 0 :: st.expected }
  | _ => unexpected st.tokens .hashOrThreshold

/-- The lock time before CHECKSEQUENCEVERIFY or CHECKLOCKTIMEVERIFY. -/
def timeLock (ctx : Context) (st : State) (leaf : UInt32 → Leaf) : Except Error State :=
  match st.tokens with
  | ⟨.number n, _⟩ :: rest => pushLeaf ctx { st with tokens := rest } (leaf n)
  | _ => unexpected st.tokens .lockTime

/-- Takes the last token of a fragment, which says what else to expect. -/
def fragment (ctx : Context) (st : State) : Except Error State :=
  match st.tokens with
  | [] => unexpected [] .fragment
  | t :: rest =>
    let after := { st with tokens := rest }
    let expecting (expected : List Expectation) : Except Error State :=
      .ok { after with expected := expected ++ st.expected }
    match t.symbol with
    | .push33 data => do
      let k ← decodeKey ctx data t.offset
      pushLeaf ctx after (.pk k)
    | .op .checkSig => expecting [.fragment, .wrap .check]
    | .op .verify =>
      if nextIs .equal rest then verifyEqual ctx { after with tokens := rest.drop 1 }
      else expecting [.fragment, .wrap .verify]
    | .op .zeroNotEqual => expecting [.fragment, .wrap .zeroNotEqual]
    | .op .checkSequenceVerify => timeLock ctx after .older
    | .op .checkLockTimeVerify => timeLock ctx after .after
    | .op .equal => equal ctx after
    | .op .checkMultiSig => multi ctx after
    | .number n =>
      if n = 0 then pushLeaf ctx after .zero
      else if n = 1 then pushLeaf ctx after .one
      else unexpected st.tokens .fragment
    | .op .endIf => expecting [.fragment, .maybeAndV, .endIf]
    | .op .boolAnd => expecting [.below, .fragment, .pair .andB]
    | .op .boolOr => expecting [.below, .fragment, .pair .orB]
    | _ => unexpected st.tokens .fragment

/-- Takes what stands before the body that ENDIF ends. -/
def endIf (st : State) : Except Error State :=
  match st.tokens with
  | ⟨.op .elseOp, _⟩ :: rest =>
    .ok { st with tokens := rest, expected := .fragment :: .maybeAndV :: .beforeElse :: st.expected }
  | ⟨.op .ifOp, _⟩ :: rest =>
    match rest with
    | ⟨.op .dup, _⟩ :: rest => .ok { st with tokens := rest, expected := .wrap .dupIf :: st.expected }
    | ⟨.op .zeroNotEqual, _⟩ :: rest => do
      let rest ← expectOp .size rest
      .ok { st with tokens := rest, expected := .wrap .nonZero :: st.expected }
    | _ => unexpected rest .dupOrZeroNotEqual
  | ⟨.op .notIf, _⟩ :: rest =>
    .ok { st with tokens := rest, expected := .beforeNotIf :: st.expected }
  | _ => unexpected st.tokens .conditional

/-- Meets one expectation; `st` holds those after it. -/
def meet (ctx : Context) (st : State) : Expectation → Except Error State
  | .fragment => fragment ctx st
  | .below =>
    if nextIs .fromAltStack st.tokens then
      .ok { st with
        tokens := st.tokens.drop 1
        expected := .fragment :: .maybeAndV :: .alt :: st.expected }
    else .ok { st with expected := .fragment :: .maybeAndV :: .maybeSwap :: st.expected }
  | .maybeSwap =>
    if nextIs .swap st.tokens then pushWrap ctx { st with tokens := st.tokens.drop 1 } .swap
    else .ok st
  | .maybeAndV =>
    if endsAndV st.tokens then .ok st
    else fragment ctx { st with expected := .andV :: st.expected }
  | .alt => do
    let tokens ← expectOp .toAltStack st.tokens
    pushWrap ctx { st with tokens } .alt
  | .wrap w => pushWrap ctx st w
  | .pair op => pushPair ctx st op
  | .andV => do
    let st ← pushPair ctx st .andV
    .ok { st with expected := .maybeAndV :: st.expected }
  | .andor => pushAndor ctx st
  | .moreSubs k n =>
    if nextIs .add st.tokens then
      .ok { st with
        tokens := st.tokens.drop 1
        expected := .below :: .moreSubs k (n + 1) :: st.expected }
    else .ok { st with expected := .fragment :: .thresh k (n + 1) :: st.expected }
  | .thresh k n => pushThresh ctx st k n
  | .endIf => endIf st
  | .beforeNotIf =>
    if nextIs .ifDup st.tokens then
      .ok { st with
        tokens := st.tokens.drop 1
        expected := .fragment :: .pair .orD :: st.expected }
    else .ok { st with expected := .fragment :: .pair .orC :: st.expected }
  | .beforeElse =>
    if nextIs .ifOp st.tokens then pushPair ctx { st with tokens := st.tokens.drop 1 } .orI
    else if nextIs .notIf st.tokens then
      .ok { st with
        tokens := st.tokens.drop 1
        expected := .fragment :: .andor :: st.expected }
    else unexpected st.tokens .choice

/-- The one fragment that is left when nothing more is expected. -/
def finish (st : State) : Except Error Checked :=
  match st.tokens, st.found with
  | t :: _, _ => scriptError (.trailing t.symbol) t.offset
  | [], [m] => .ok m
  | [], found => scriptError (.fragmentCount found.length) 0

/-- Meets at most `steps` expectations, and ends when there are none. -/
def run (ctx : Context) : (steps : Nat) → State → Except Error Checked
  | 0, st => finish st
  | steps + 1, st =>
    match st.expected with
    | [] => finish st
    | e :: expected => do
      let next ← meet ctx { st with expected } e
      run ctx steps next

/-- The state before the first step. -/
def start (tokens : List Token) : State := ⟨tokens, [.fragment, .maybeAndV], []⟩

/-- More steps than tokens can keep the decoder busy with: a token brings in no more than eight, and
two are there from the start. -/
def maxSteps (tokens : List Token) : Nat := 8 * tokens.length + 3

/-- The fragment that a script is made of. -/
def decode (s : Settings) (script : Bytes) : Except Error Checked :=
  match Token.lex script with
  | .error (cause, offset) => scriptError (.token cause) offset
  | .ok tokens => run ⟨s, script.length⟩ (maxSteps tokens) (start tokens)

end LockScript.Decoder
