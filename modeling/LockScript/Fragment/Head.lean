import LockScript.Fragment.Text

/-!
The names that fragments are written with, and the arguments they take.
-/

namespace LockScript

/-- A letter before a colon: a wrapper, or one of the shorthands `t:X` for `and_v(X,1)`, `u:X` for
`or_i(X,0)` and `l:X` for `or_i(0,X)`. -/
inductive Letter where
  | wrapper (w : Wrapper)
  | thenOne
  | orZero
  | zeroOr
  deriving DecidableEq, Repr

namespace Letter

/-- The letters. -/
def all : List Letter := [.wrapper .alt, .wrapper .swap, .wrapper .check, .wrapper .dupIf,
  .wrapper .verify, .wrapper .nonZero, .wrapper .zeroNotEqual, .thenOne, .orZero, .zeroOr]

/-- How a letter is written. -/
def char : Letter → Char
  | .wrapper w => w.letter
  | .thenOne => 't'
  | .orZero => 'u'
  | .zeroOr => 'l'

/-- The letter that is written with the given byte. -/
def ofByte? (b : UInt8) : Option Letter := all.find? fun l => byte l.char = b

/-- A letter is found by the byte it is written with. -/
@[simp] theorem ofByte?_byte (l : Letter) : ofByte? (byte l.char) = some l := by
  cases l with
  | wrapper w => cases w <;> decide
  | thenOne => decide
  | orZero => decide
  | zeroOr => decide

end Letter

/-- The kind of an argument: a plain word or a fragment. -/
inductive ArgKind where
  | word
  | fragment
  deriving DecidableEq, Repr

/-- The arguments that a name takes: fixed ones, and any number of a last kind after them if there is
one. -/
structure Shape where
  fixed : List ArgKind
  rest : Option ArgKind := none

/-- The kind of the argument with the given index, if there may be one. -/
def Shape.kind? (s : Shape) (index : Nat) : Option ArgKind :=
  match s.fixed[index]? with
  | some kind => some kind
  | none => s.rest

/-- What a fragment is called in text. -/
inductive Head where
  | zero
  | one
  | pk
  | pkHash
  | after
  | older
  | hashLock (f : HashFunction)
  | pair (op : Combinator)
  /-- `and_n(X,Y)`, which is `andor(X,Y,0)`. -/
  | andN
  | andor
  | thresh
  | multi
  /-- A letter used as a name: `v(X)` for `v:X`. -/
  | letter (l : Letter)
  deriving DecidableEq, Repr

namespace Head

/-- The names. -/
def all : List Head := [.zero, .one, .pk, .pkHash, .after, .older, .hashLock .sha256,
  .hashLock .hash256, .hashLock .ripemd160, .hashLock .hash160, .pair .andV, .pair .andB, .andN,
  .andor, .pair .orB, .pair .orD, .pair .orC, .pair .orI, .thresh, .multi] ++ Letter.all.map .letter

/-- How a name is written. -/
def name : Head → String
  | .zero => "0"
  | .one => "1"
  | .pk => "pk"
  | .pkHash => "pk_h"
  | .after => "after"
  | .older => "older"
  | .hashLock f => f.name
  | .pair op => op.name
  | .andN => "and_n"
  | .andor => "andor"
  | .thresh => "thresh"
  | .multi => "thresh_m"
  | .letter l => String.singleton l.char

/-- The name that is written so. -/
def ofName? (name : Bytes) : Option Head := all.find? fun h => utf8 h.name = name

/-- The arguments that a name takes. -/
def shape : Head → Shape
  | .zero => ⟨[], none⟩
  | .one => ⟨[], none⟩
  | .pk => ⟨[.word], none⟩
  | .pkHash => ⟨[.word], none⟩
  | .after => ⟨[.word], none⟩
  | .older => ⟨[.word], none⟩
  | .hashLock _ => ⟨[.word], none⟩
  | .pair _ => ⟨[.fragment, .fragment], none⟩
  | .andN => ⟨[.fragment, .fragment], none⟩
  | .andor => ⟨[.fragment, .fragment, .fragment], none⟩
  | .thresh => ⟨[.word], some .fragment⟩
  | .multi => ⟨[.word], some .word⟩
  | .letter _ => ⟨[.fragment], none⟩

end Head

end LockScript
