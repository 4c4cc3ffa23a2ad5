import LockScript.Text.Bytes

/-!
Digests: byte strings of a fixed width, and the padding of messages into blocks of sixteen words that
the hash functions of this library share.
-/

namespace LockScript

/-- A byte string of `width` bytes. -/
structure Digest (width : Nat) where
  bytes : Bytes
  length_bytes : bytes.length = width
  deriving DecidableEq

namespace Digest

attribute [simp] length_bytes

/-- Two digests with the same bytes are equal. -/
theorem ext_bytes {width : Nat} {x y : Digest width} (h : x.bytes = y.bytes) : x = y := by
  cases x; cases y; cases h; rfl

/-- The digest of these bytes, if there are as many as it has. -/
def ofBytes? (width : Nat) (data : Bytes) : Option (Digest width) :=
  if h : data.length = width then some ⟨data, h⟩ else none

@[simp] theorem ofBytes?_bytes {width : Nat} (d : Digest width) :
    ofBytes? width d.bytes = some d := by
  simp [ofBytes?]

/-- The first `width` bytes of `data`, with zeros after them where it is shorter. -/
def ofPrefix (width : Nat) (data : Bytes) : Digest width :=
  ⟨data.take width ++ List.replicate (width - data.length) 0, by simp; omega⟩

end Digest

namespace Block

/-- The bytes of a number, least significant first. -/
def littleEndian : Nat → Nat → Bytes
  | 0, _ => []
  | size + 1, n => UInt8.ofNat n :: littleEndian size (n / 256)

/-- Groups of four bytes as words, the first byte being the most significant. -/
def bigWords : Bytes → List UInt32
  | a :: b :: c :: d :: rest =>
    (a.toUInt32 <<< 24 ||| b.toUInt32 <<< 16 ||| c.toUInt32 <<< 8 ||| d.toUInt32) :: bigWords rest
  | _ => []

/-- Groups of four bytes as words, the first byte being the least significant. -/
def littleWords : Bytes → List UInt32
  | a :: b :: c :: d :: rest =>
    (a.toUInt32 ||| b.toUInt32 <<< 8 ||| c.toUInt32 <<< 16 ||| d.toUInt32 <<< 24)
      :: littleWords rest
  | _ => []

/-- The four bytes of a word, most significant first. -/
def bigBytes (w : UInt32) : Bytes :=
  [(w >>> 24).toUInt8, (w >>> 16).toUInt8, (w >>> 8).toUInt8, w.toUInt8]

/-- The four bytes of a word, least significant first. -/
def littleBytes (w : UInt32) : Bytes :=
  [w.toUInt8, (w >>> 8).toUInt8, (w >>> 16).toUInt8, (w >>> 24).toUInt8]

/-- A message followed by one set bit and as many zeros as fill all but the last eight bytes of a
block of sixty-four. -/
def padded (message : Bytes) : Bytes :=
  let zeros := (119 - message.length % 64) % 64
  message ++ 0x80 :: List.replicate zeros 0

/-- The words in groups of sixteen. The first argument bounds the number of groups. -/
def groups : Nat → List UInt32 → List (List UInt32)
  | 0, _ => []
  | _, [] => []
  | count + 1, words => words.take 16 :: groups count (words.drop 16)

/-- Left rotation of a word. -/
def rotateLeft (w : UInt32) (distance : UInt32) : UInt32 := w <<< distance ||| w >>> (32 - distance)

/-- Right rotation of a word. -/
def rotateRight (w : UInt32) (distance : UInt32) : UInt32 := w >>> distance ||| w <<< (32 - distance)

end Block

end LockScript
