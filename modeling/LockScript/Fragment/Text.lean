import LockScript.Fragment.Basic
import LockScript.Text.Decimal

/-!
The canonical text of fragments.

Wrappers are written as one prefix of letters before a colon. The letters t, u and l, and the name
`and_n`, stand for `and_v(X,1)`, `or_i(X,0)`, `or_i(0,X)` and `andor(X,Y,0)`, and are used wherever
they apply; `or_i(0,0)` takes l.
-/

namespace LockScript

/-- The letter of a wrapper. -/
def Wrapper.letter : Wrapper → Char
  | .alt => 'a'
  | .swap => 's'
  | .check => 'c'
  | .dupIf => 'd'
  | .verify => 'v'
  | .nonZero => 'j'
  | .zeroNotEqual => 'n'

/-- The name of a combinator. -/
def Combinator.name : Combinator → String
  | .andV => "and_v"
  | .andB => "and_b"
  | .orB => "or_b"
  | .orD => "or_d"
  | .orC => "or_c"
  | .orI => "or_i"

/-- `name(arg,...)` for arguments that are texts already. -/
def call (name : Bytes) (args : List Bytes) : Bytes :=
  name ++ byte '(' :: (joinWith [byte ','] args ++ [byte ')'])

/-- The text of a leaf. -/
def Leaf.text : Leaf → Bytes
  | .zero => utf8 "0"
  | .one => utf8 "1"
  | .pk key => call (utf8 "pk") [key.text]
  | .pkHash hash => call (utf8 "pk_h") [Hex.encode hash.bytes]
  | .after lock => call (utf8 "after") [Decimal.ofNat lock.toNat]
  | .older lock => call (utf8 "older") [Decimal.ofNat lock.toNat]
  | .hashLock f image => call (utf8 f.name) [Hex.encode image.bytes]
  | .multi k keys => call (utf8 "thresh_m") (Decimal.ofInt k :: keys.map Key.text)

/-- A text in two parts: the letters of its wrappers, and what they are wrapped around. -/
structure WrappedText where
  letters : Bytes
  body : Bytes

namespace WrappedText

/-- One more wrapper around the text. -/
def wrap (letter : Char) (t : WrappedText) : WrappedText := ⟨byte letter :: t.letters, t.body⟩

/-- The letters, if there are any, then a colon and the body. -/
def joined (t : WrappedText) : Bytes :=
  if t.letters = [] then t.body else t.letters ++ byte ':' :: t.body

end WrappedText

namespace Fragment

mutual

/-- The canonical text with the wrappers kept apart. -/
@[simp] def wrappedText : Fragment → WrappedText
  | .leaf l => ⟨[], l.text⟩
  | .wrap w x => x.wrappedText.wrap w.letter
  | .pair op x y =>
    if op = .andV ∧ y.isOne then x.wrappedText.wrap 't'
    else if op = .orI ∧ x.isZero then y.wrappedText.wrap 'l'
    else if op = .orI ∧ y.isZero then x.wrappedText.wrap 'u'
    else ⟨[], call (utf8 op.name) [x.wrappedText.joined, y.wrappedText.joined]⟩
  | .andor x y z =>
    if z.isZero then ⟨[], call (utf8 "and_n") [x.wrappedText.joined, y.wrappedText.joined]⟩
    else ⟨[], call (utf8 "andor")
      [x.wrappedText.joined, y.wrappedText.joined, z.wrappedText.joined]⟩
  | .thresh k subs => ⟨[], call (utf8 "thresh") (Decimal.ofInt k :: textsOf subs)⟩

/-- The canonical texts of several fragments. -/
@[simp] def textsOf : List Fragment → List Bytes
  | [] => []
  | x :: rest => x.wrappedText.joined :: textsOf rest

end

/-- The canonical text of a fragment. -/
def text (f : Fragment) : Bytes := f.wrappedText.joined

end Fragment

end LockScript
