import LockScript.Fragment.Text

/-!
The conditions that policies are made of.
-/

namespace LockScript

/-- A single condition for spending. -/
inductive Condition where
  /-- Never met. -/
  | unsatisfiable
  /-- Always met. -/
  | trivial
  /-- A signature by the key. -/
  | key (signer : Key)
  /-- A signature by a key with the hash. -/
  | keyHash (committed : Digest 20)
  /-- An absolute lock time. -/
  | after (lock : UInt32)
  /-- A relative lock time. -/
  | older (lock : UInt32)
  /-- A preimage of `image`. -/
  | hash (f : HashFunction) (image : Bytes)
  /-- A condition of a kind that is not known, by its number. -/
  | other (kind : UInt8)
  deriving DecidableEq

namespace Condition

/-- The name of the kind of condition. -/
def name : Condition → String
  | .unsatisfiable => "UNSATISFIABLE"
  | .trivial => "TRIVIAL"
  | .key _ => "pk"
  | .keyHash _ => "pkh"
  | .after _ => "after"
  | .older _ => "older"
  | .hash f _ => f.name
  | .other kind => s!"Unknown SemanticKind ({kind.toNat})"

/-- The text of a condition; one of an unknown kind has none. -/
def text (c : Condition) : Bytes :=
  match c with
  | .unsatisfiable => utf8 c.name
  | .trivial => utf8 c.name
  | .key signer => call (utf8 c.name) [signer.text]
  | .keyHash committed => call (utf8 c.name) [Hex.encode committed.bytes]
  | .after lock => call (utf8 c.name) [Decimal.ofNat lock.toNat]
  | .older lock => call (utf8 c.name) [Decimal.ofNat lock.toNat]
  | .hash _ image => call (utf8 c.name) [Hex.encode image]
  | .other _ => []

end Condition

end LockScript
