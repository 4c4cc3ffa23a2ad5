import LockScript.Spending.Satisfier
import LockScript.Spending.Transaction

/-!
Wallets: satisfiers that look up what has been put into them.
-/

namespace LockScript

/-- Signatures, keys and preimages, and the transaction they are to be used for. -/
structure Wallet where
  transaction : Transaction
  /-- Signatures by the text of their keys; of two for one key the first counts. -/
  signatures : List (Bytes × Bytes)
  /-- Keys in the order in which they were added. -/
  keys : List Key
  /-- Preimages in the order in which they were added. -/
  preimages : List Bytes

namespace Wallet

/-- The only length that the preimage of a hash lock may have. -/
def preimageSize : Nat := 32

/-- A wallet that holds nothing. -/
def empty (transaction : Transaction) : Wallet := ⟨transaction, [], [], []⟩

/-- The signature by the key with this text. -/
def signature? (w : Wallet) (keyText : Bytes) : Option Bytes := w.signatures.lookup keyText

/-- Adds a signature by a key in place of an earlier one. The key itself is added with its first
signature. -/
def addSignature (w : Wallet) (key : Key) (signature : Bytes) : Wallet :=
  { w with
    signatures := (key.text, signature) :: w.signatures
    keys := if (w.signature? key.text).isSome then w.keys else w.keys ++ [key] }

/-- Adds a key without a signature. -/
def addKey (w : Wallet) (key : Key) : Wallet := { w with keys := w.keys ++ [key] }

/-- Adds a preimage for all hash functions. -/
def addPreimage (w : Wallet) (preimage : Bytes) : Wallet :=
  { w with preimages := w.preimages ++ [preimage] }

/-- The first key with the hash. -/
def keyForHash (w : Wallet) (hash : Digest 20) : Option Key := w.keys.find? (·.hash = hash)

/-- The first preimage of the digest that has the right length. -/
def preimage (w : Wallet) (f : HashFunction) (image : Digest f.width) : Option Bytes :=
  w.preimages.find? fun p => p.length = preimageSize && f.digest p = image

/-- What the wallet holds, as a satisfier. -/
def satisfier (w : Wallet) : Satisfier where
  signature key := w.signature? key.text
  keyForHash := w.keyForHash
  preimage := w.preimage
  older := w.transaction.older
  after := w.transaction.after

end Wallet

end LockScript
