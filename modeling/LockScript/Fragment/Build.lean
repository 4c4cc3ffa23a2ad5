import LockScript.Fragment.Checked
import LockScript.Fragment.Head

/-!
Building a fragment from its name and the arguments that have been read.
-/

namespace LockScript

/-- What readers of fragments may choose. -/
structure Settings where
  /-- How the words for keys are read. -/
  readKey : Key.Reader := Key.ofText
  /-- How pushes of 33 bytes in a script are read. -/
  decodeKey : Key.Reader := Key.ofBytes
  /-- How deep fragments may be nested. -/
  limit : Int := defaultLimit

/-- An argument that has been read. -/
inductive Arg where
  | word (text : Bytes) (offset : Nat)
  | fragment (m : Checked)

/-- The result with errors put down to `offset` where they have no place of their own. -/
def located {α : Type} (offset : Nat) : Except Error α → Except Error α
  | .ok a => .ok a
  | .error e => .error (e.locate offset)

/-- The failure for `cause` at `offset`. -/
def textError {α : Type} (cause : TextCause) (offset : Nat) : Except Error α :=
  .error ⟨.text cause, some offset⟩

namespace Arg

/-- The number below 2³² in a word. -/
def lockTime (text : Bytes) (offset : Nat) : Except Error UInt32 :=
  match Decimal.below? 32 text with
  | some n => .ok (UInt32.ofNat n)
  | none => textError (.badLockTime text) offset

/-- The number below 2³¹ in a word. -/
def threshold (text : Bytes) (offset : Nat) : Except Error Int :=
  match Decimal.below? 31 text with
  | some n => .ok n
  | none => textError (.badThreshold text) offset

/-- The digest in a word. -/
def digest (width : Nat) (text : Bytes) (offset : Nat) : Except Error (Digest width) :=
  match Hex.decode text with
  | .error _ => textError (.badHash width text) offset
  | .ok data => match Digest.ofBytes? width data with
    | none => textError (.badHash width text) offset
    | some d => .ok d

/-- The key in a word. -/
def key (s : Settings) (text : Bytes) (offset : Nat) : Except Error Key :=
  match s.readKey text with
  | .ok k => .ok k
  | .error reason => textError (.badKey text reason) offset

/-- The hash in a word: 20 bytes in hexadecimal, or else the hash of a key. -/
def keyHash (s : Settings) (text : Bytes) (offset : Nat) : Except Error (Digest 20) :=
  match digest 20 text offset with
  | .ok hash => .ok hash
  | .error _ => (key s text offset).map Key.hash

/-- The fragments among arguments. -/
def fragments : List Arg → List Checked
  | [] => []
  | .fragment m :: rest => m :: fragments rest
  | .word _ _ :: rest => fragments rest

/-- The keys in words. -/
def keys (s : Settings) : List Arg → Except Error (List Key)
  | [] => .ok []
  | .word text offset :: rest => do
    let k ← key s text offset
    let ks ← keys s rest
    .ok (k :: ks)
  | .fragment _ :: rest => keys s rest

end Arg

/-- What a letter makes of a fragment. The `0` or `1` that a shorthand adds stands at `letterOffset`,
the result at `offset`. -/
def applyLetter (limit : Int) (l : Letter) (letterOffset offset : Nat) (m : Checked) :
    Except Error Checked :=
  match l with
  | .wrapper w => located offset (Checked.wrap limit w m)
  | .thenOne => do
    let one ← located letterOffset (Checked.leaf limit .one)
    located offset (Checked.pair limit .andV m one)
  | .orZero => do
    let zero ← located letterOffset (Checked.leaf limit .zero)
    located offset (Checked.pair limit .orI m zero)
  | .zeroOr => do
    let zero ← located letterOffset (Checked.leaf limit .zero)
    located offset (Checked.pair limit .orI zero m)

/-- The letters around a fragment, the last one innermost. They stand `index` bytes after
`offset`. -/
def applyLetters (limit : Int) (offset : Nat) :
    (index : Nat) → (letters : Bytes) → Checked → Except Error Checked
  | _, [], m => .ok m
  | index, b :: rest, m => do
    let inner ← applyLetters limit offset (index + 1) rest m
    match Letter.ofByte? b with
    | none => textError (.unknownWrapper b) (offset + index)
    | some l => applyLetter limit l (offset + index) offset inner

/-- The fragment called `name` at `offset`, with arguments of the kinds that its shape asks for. -/
def build (s : Settings) (head : Head) (name : Bytes) (offset : Nat) (args : List Arg) :
    Except Error Checked :=
  let wrong : Except Error Checked := textError (.wrongArguments name args.length) offset
  let leaf (l : Leaf) : Except Error Checked := located offset (Checked.leaf s.limit l)
  match head with
  | .zero => match args with
    | [] => leaf .zero
    | _ => wrong
  | .one => match args with
    | [] => leaf .one
    | _ => wrong
  | .pk => match args with
    | [.word text place] => do leaf (.pk (← Arg.key s text place))
    | _ => wrong
  | .pkHash => match args with
    | [.word text place] => do leaf (.pkHash (← Arg.keyHash s text place))
    | _ => wrong
  | .after => match args with
    | [.word text place] => do leaf (.after (← Arg.lockTime text place))
    | _ => wrong
  | .older => match args with
    | [.word text place] => do leaf (.older (← Arg.lockTime text place))
    | _ => wrong
  | .hashLock f => match args with
    | [.word text place] => do leaf (.hashLock f (← Arg.digest f.width text place))
    | _ => wrong
  | .pair op => match args with
    | [.fragment x, .fragment y] =>
      if op = .andV ∧ y.fragment.isOne then textError .spelledOutTrue offset
      else located offset (Checked.pair s.limit op x y)
    | _ => wrong
  | .andN => match args with
    | [.fragment x, .fragment y] => do
      let zero ← leaf .zero
      located offset (Checked.andor s.limit x y zero)
    | _ => wrong
  | .andor => match args with
    | [.fragment x, .fragment y, .fragment z] => located offset (Checked.andor s.limit x y z)
    | _ => wrong
  | .thresh => match args with
    | .word text place :: sub :: subs => do
      let k ← Arg.threshold text place
      located offset (Checked.thresh s.limit k (Arg.fragments (sub :: subs)))
    | _ => wrong
  | .multi => match args with
    | .word text place :: word :: words =>
      if words.length + 1 > maxMultiKeys then
        textError (.tooManyKeys (words.length + 1)) offset
      else do
        let k ← Arg.threshold text place
        let keys ← Arg.keys s (word :: words)
        leaf (.multi k keys)
    | _ => wrong
  | .letter l => match args with
    | [.fragment x] => applyLetter s.limit l offset offset x
    | _ => wrong

end LockScript
