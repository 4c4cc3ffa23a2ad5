import LockScript.Digest.Sha256
import LockScript.Digest.Ripemd160

/-!
The four hash functions a hash lock can use.
-/

namespace LockScript

/-- A hash function of a hash lock. -/
inductive HashFunction where
  /-- SHA-256. -/
  | sha256
  /-- SHA-256 twice. -/
  | hash256
  /-- RIPEMD-160. -/
  | ripemd160
  /-- RIPEMD-160 of SHA-256. -/
  | hash160
  deriving DecidableEq, Repr

/-- RIPEMD-160 of SHA-256, the hash by which a key is committed to. -/
def hash160 (message : Bytes) : Digest 20 := Ripemd160.hash (Sha256.hash message).bytes

namespace HashFunction

/-- The number of bytes of a digest. -/
def width : HashFunction → Nat
  | .sha256 => 32
  | .hash256 => 32
  | .ripemd160 => 20
  | .hash160 => 20

/-- The digest of a message. -/
def digest : (f : HashFunction) → Bytes → Digest f.width
  | .sha256, message => Sha256.hash message
  | .hash256, message => Sha256.hash (Sha256.hash message).bytes
  | .ripemd160, message => Ripemd160.hash message
  | .hash160, message => LockScript.hash160 message

/-- The name of the function in the text of fragments and policies. -/
def name : HashFunction → String
  | .sha256 => "sha256"
  | .hash256 => "hash256"
  | .ripemd160 => "ripemd160"
  | .hash160 => "hash160"

end HashFunction

end LockScript
