import LockScript.Digest.Basic

/-!
The hash function RIPEMD-160: two lines of eighty rounds over the same block, added together.
-/

namespace LockScript.Ripemd160

open Block

/-- The five words that are carried from block to block. -/
structure State where
  a : UInt32
  b : UInt32
  c : UInt32
  d : UInt32
  e : UInt32

/-- The state before the first block. -/
def State.initial : State where
  a := 0x67452301
  b := 0xefcdab89
  c := 0x98badcfe
  d := 0x10325476
  e := 0xc3d2e1f0

/-- Sixteen rounds that share a bit function and a constant: which word each round takes and how far
it rotates. -/
structure Pass where
  mix : UInt32 → UInt32 → UInt32 → UInt32
  constant : UInt32
  words : List Nat
  rotations : List UInt32

/-- The bits set in an odd number of the three words. -/
def parity (x y z : UInt32) : UInt32 := x ^^^ y ^^^ z

/-- The bits of `y` where `x` is set, and of `z` elsewhere. -/
def choose (x y z : UInt32) : UInt32 := (x &&& y) ||| (~~~ x &&& z)

/-- The bits in which `z` differs from "`x` or not `y`". -/
def orNot (x y z : UInt32) : UInt32 := (x ||| ~~~ y) ^^^ z

/-- The bits of `x` where `z` is set, and of `y` elsewhere. -/
def chooseBy (x y z : UInt32) : UInt32 := (x &&& z) ||| (y &&& ~~~ z)

/-- The bits in which `x` differs from "`y` or not `z`". -/
def notOr (x y z : UInt32) : UInt32 := x ^^^ (y ||| ~~~ z)

/-- The passes of the left line. -/
def leftLine : List Pass := [
  ⟨parity, 0x00000000, [0, 1, 2, 3, 4, 5, 6, 7, 8, 9, 10, 11, 12, 13, 14, 15],
    [11, 14, 15, 12, 5, 8, 7, 9, 11, 13, 14, 15, 6, 7, 9, 8]⟩,
  ⟨choose, 0x5a827999, [7, 4, 13, 1, 10, 6, 15, 3, 12, 0, 9, 5, 2, 14, 11, 8],
    [7, 6, 8, 13, 11, 9, 7, 15, 7, 12, 15, 9, 11, 7, 13, 12]⟩,
  ⟨orNot, 0x6ed9eba1, [3, 10, 14, 4, 9, 15, 8, 1, 2, 7, 0, 6, 13, 11, 5, 12],
    [11, 13, 6, 7, 14, 9, 13, 15, 14, 8, 13, 6, 5, 12, 7, 5]⟩,
  ⟨chooseBy, 0x8f1bbcdc, [1, 9, 11, 10, 0, 8, 12, 4, 13, 3, 7, 15, 14, 5, 6, 2],
    [11, 12, 14, 15, 14, 15, 9, 8, 9, 14, 5, 6, 8, 6, 5, 12]⟩,
  ⟨notOr, 0xa953fd4e, [4, 0, 5, 9, 7, 12, 2, 10, 14, 1, 3, 8, 11, 6, 15, 13],
    [9, 15, 5, 11, 6, 8, 13, 12, 5, 12, 13, 14, 11, 8, 5, 6]⟩]

/-- The passes of the right line. -/
def rightLine : List Pass := [
  ⟨notOr, 0x50a28be6, [5, 14, 7, 0, 9, 2, 11, 4, 13, 6, 15, 8, 1, 10, 3, 12],
    [8, 9, 9, 11, 13, 15, 15, 5, 7, 7, 8, 11, 14, 14, 12, 6]⟩,
  ⟨chooseBy, 0x5c4dd124, [6, 11, 3, 7, 0, 13, 5, 10, 14, 15, 8, 12, 4, 9, 1, 2],
    [9, 13, 15, 7, 12, 8, 9, 11, 7, 7, 12, 7, 6, 15, 13, 11]⟩,
  ⟨orNot, 0x6d703ef3, [15, 5, 1, 3, 7, 14, 6, 9, 11, 8, 12, 2, 10, 0, 4, 13],
    [9, 7, 15, 11, 8, 6, 6, 14, 12, 13, 5, 14, 13, 13, 7, 5]⟩,
  ⟨choose, 0x7a6d76e9, [8, 6, 4, 1, 3, 11, 15, 0, 5, 12, 2, 13, 9, 7, 10, 14],
    [15, 5, 8, 11, 14, 14, 6, 14, 6, 9, 12, 9, 12, 5, 15, 8]⟩,
  ⟨parity, 0x00000000, [12, 15, 10, 4, 1, 5, 8, 7, 6, 2, 13, 14, 0, 3, 9, 11],
    [8, 5, 12, 9, 12, 5, 14, 6, 8, 13, 6, 5, 15, 13, 11, 11]⟩]

/-- One round of a pass over the message word `w`. -/
def State.round (pass : Pass) (s : State) (w rotation : UInt32) : State :=
  let t := rotateLeft (s.a + pass.mix s.b s.c s.d + w + pass.constant) rotation + s.e
  { a := s.e, b := t, c := s.b, d := rotateLeft s.c 10, e := s.d }

/-- The sixteen rounds of a pass over a block. -/
def State.pass (block : List UInt32) (s : State) (pass : Pass) : State :=
  (pass.words.zip pass.rotations).foldl
    (fun s step => s.round pass (block.getD step.1 0) step.2) s

/-- The state after one more block of sixteen words. -/
def State.absorb (s : State) (block : List UInt32) : State :=
  let l := leftLine.foldl (State.pass block) s
  let r := rightLine.foldl (State.pass block) s
  { a := s.b + l.c + r.d, b := s.c + l.d + r.e, c := s.d + l.e + r.a
    d := s.e + l.a + r.b, e := s.a + l.b + r.c }

/-- The digest a state stands for. -/
def State.digest (s : State) : Digest 20 :=
  ⟨littleBytes s.a ++ littleBytes s.b ++ littleBytes s.c ++ littleBytes s.d ++ littleBytes s.e, rfl⟩

/-- The RIPEMD-160 digest of a message. -/
def hash (message : Bytes) : Digest 20 :=
  let words := littleWords (padded message ++ littleEndian 8 (8 * message.length))
  ((groups words.length words).foldl State.absorb State.initial).digest

end LockScript.Ripemd160
