import LockScript.Proofs.Policy.Lift
import LockScript.Spending.Wallet

/-!
Wallets that more is put into.

A wallet only grows: signatures may be replaced but do not go away, and keys and preimages are put
after those that are there already (`Wallet.Grows`). As the first key with a hash is the one that
counts, a key that is added later never comes before one that was found, whether or not there is a
signature by it. So whatever a wallet can satisfy it can still satisfy after any number of deposits.
Nothing depends on what the hashes of keys are, and different keys may have the same.
-/

namespace LockScript

/-! ## Satisfiers with more at hand -/

namespace Satisfier

/-- Everything that the first satisfier has at hand the second has as well, and it has the same key
for every hash that the first has one for. -/
structure Within (s s' : Satisfier) : Prop where
  signs (key : Key) : s.signs key = true → s'.signs key = true
  keyForHash (hash : Digest 20) (key : Key) :
    s.keyForHash hash = some key → s'.keyForHash hash = some key
  preimage (f : HashFunction) (image : Digest f.width) :
    (s.preimage f image).isSome = true → (s'.preimage f image).isSome = true
  older (lock : UInt32) : s.older lock = true → s'.older lock = true
  after (lock : UInt32) : s.after lock = true → s'.after lock = true

variable {s s' : Satisfier}

theorem Within.meets (within : s.Within s') (c : Condition) (met : s.meets c = true) :
    s'.meets c = true := by
  cases c with
  | key signer => exact within.signs signer met
  | keyHash committed =>
    cases found : s.keyForHash committed with
    | none => simp [Satisfier.meets, found] at met
    | some key =>
      have signed : s.signs key = true := by simpa [Satisfier.meets, found] using met
      simp [Satisfier.meets, within.keyForHash committed key found, within.signs key signed]
  | after lock => exact within.after lock met
  | older lock => exact within.older lock met
  | hash f image =>
    rw [Satisfier.meets] at met ⊢
    split at met
    · next width =>
      rw [dif_pos width]
      exact within.preimage f ⟨image, width⟩ met
    · cases met
  | _ => exact met

/-- More at hand never hurts. -/
theorem Within.canSatisfy (within : s.Within s') {f : Fragment} (can : f.canSatisfy s = true) :
    f.canSatisfy s' = true := by
  rw [← Fragment.isMet_policy] at can ⊢
  exact Policy.isMet_mono within.meets can

end Satisfier

/-! ## Deposits -/

namespace Wallet

/-- Something to put into a wallet. -/
inductive Deposit where
  | signature (key : Key) (signature : Bytes)
  /-- A key without a signature. -/
  | key (key : Key)
  | preimage (preimage : Bytes)

/-- The wallet with one thing more in it. -/
def deposit (w : Wallet) : Deposit → Wallet
  | .signature key signature => w.addSignature key signature
  | .key key => w.addKey key
  | .preimage preimage => w.addPreimage preimage

/-- The wallet after a sequence of deposits. -/
def depositAll (w : Wallet) (deposits : List Deposit) : Wallet := deposits.foldl deposit w

/-- The satisfier of a wallet where the hashes of keys are those given. -/
def satisfierBy (hashOf : Key → Digest 20) (w : Wallet) : Satisfier :=
  { w.satisfier with keyForHash := fun hash => w.keys.find? (hashOf · = hash) }

theorem satisfier_eq (w : Wallet) : w.satisfier = w.satisfierBy Key.hash := rfl

/-- What any deposit leaves of a wallet. -/
structure Grows (w w' : Wallet) : Prop where
  transaction : w'.transaction = w.transaction
  signatures (text : Bytes) :
    (w.signature? text).isSome = true → (w'.signature? text).isSome = true
  keys : w.keys <+: w'.keys
  preimages : w.preimages <+: w'.preimages

namespace Grows

variable {w w' w'' : Wallet}

theorem refl (w : Wallet) : w.Grows w := ⟨rfl, fun _ => id, List.prefix_refl _, List.prefix_refl _⟩

theorem trans (first : w.Grows w') (second : w'.Grows w'') : w.Grows w'' where
  transaction := second.transaction.trans first.transaction
  signatures text signed := second.signatures text (first.signatures text signed)
  keys := first.keys.trans second.keys
  preimages := first.preimages.trans second.preimages

theorem satisfierBy (grows : w.Grows w') (hashOf : Key → Digest 20) :
    (w.satisfierBy hashOf).Within (w'.satisfierBy hashOf) where
  signs key := grows.signatures key.text
  keyForHash hash key found := grows.keys.find?_eq_some found
  preimage f image found := by
    obtain ⟨p, first⟩ := Option.isSome_iff_exists.1 found
    exact Option.isSome_iff_exists.2 ⟨p, grows.preimages.find?_eq_some first⟩
  older lock met := by
    rw [← met]
    exact congrArg (Transaction.older · lock) grows.transaction
  after lock met := by
    rw [← met]
    exact congrArg (Transaction.after · lock) grows.transaction

end Grows

/-- A new signature takes nothing away: under the text of its key it replaces one at most. -/
theorem grows_addSignature (w : Wallet) (key : Key) (signature : Bytes) :
    w.Grows (w.addSignature key signature) where
  transaction := rfl
  signatures text signed := by
    rw [signature?, addSignature, List.lookup_cons]
    split
    · rfl
    · exact signed
  keys := by
    rw [addSignature]
    split
    · exact List.prefix_refl _
    · exact List.prefix_append _ _
  preimages := List.prefix_refl _

theorem grows_deposit (w : Wallet) (d : Deposit) : w.Grows (w.deposit d) := by
  cases d with
  | signature key signature => exact w.grows_addSignature key signature
  | key key => exact ⟨rfl, fun _ => id, List.prefix_append _ _, List.prefix_refl _⟩
  | preimage preimage => exact ⟨rfl, fun _ => id, List.prefix_refl _, List.prefix_append _ _⟩

theorem grows_depositAll (w : Wallet) (deposits : List Deposit) :
    w.Grows (w.depositAll deposits) := by
  induction deposits generalizing w with
  | nil => exact .refl w
  | cons d rest ih => exact (w.grows_deposit d).trans (ih (w.deposit d))

end Wallet

/-! ## Fragments that a wallet can satisfy -/

namespace Checked

open Wallet (Deposit)

/-- What can be satisfied with a wallet, however it was filled, can still be satisfied after any
further deposits; also if the hashes of keys were any others. -/
theorem canSatisfy_after_deposits (m : Checked) (tx : Transaction) (before more : List Deposit) :
    (m.fragment.canSatisfy ((Wallet.empty tx).depositAll before).satisfier = true →
      m.fragment.canSatisfy (((Wallet.empty tx).depositAll before).depositAll more).satisfier
        = true) ∧
    ∀ hashOf : Key → Digest 20,
      m.fragment.canSatisfy (((Wallet.empty tx).depositAll before).satisfierBy hashOf) = true →
      m.fragment.canSatisfy
        ((((Wallet.empty tx).depositAll before).depositAll more).satisfierBy hashOf) = true := by
  have grows := ((Wallet.empty tx).depositAll before).grows_depositAll more
  refine ⟨fun can => ?_, fun hashOf can => (grows.satisfierBy hashOf).canSatisfy can⟩
  rw [Wallet.satisfier_eq] at can ⊢
  exact (grows.satisfierBy Key.hash).canSatisfy can

/-- `c:pk_h(H)`. -/
def pledged : Checked where
  fragment := .wrap .check (.leaf (.pkHash (.ofPrefix 20 [1])))
  facts := ⟨⟨⟨.B, .anyNonZero, true, true⟩, ⟨.unique, true, true⟩⟩,
    ⟨.segwitOnly, 25, true, 4, some 4, some 4⟩⟩
  typed := by rfl

/-- Every key has the hash `H`. -/
def sameHash (_ : Key) : Digest 20 := .ofPrefix 20 [1]

/-- A signature by `A`. -/
def firstDeposits : List Deposit := [.signature (.named [0x41]) [0x30]]

/-- The key `B` without a signature, a preimage, and an empty signature by `A`. -/
def laterDeposits : List Deposit :=
  [.key (.named [0x42]), .preimage [], .signature (.named [0x41]) []]

theorem canSatisfy_after_deposits_pledged :
    pledged.fragment.canSatisfy
      (((Wallet.empty ⟨2, 0, 0⟩).depositAll firstDeposits).satisfierBy sameHash) = true ∧
    pledged.fragment.canSatisfy ((((Wallet.empty ⟨2, 0, 0⟩).depositAll firstDeposits).depositAll
      laterDeposits).satisfierBy sameHash) = true := by
  have can : pledged.fragment.canSatisfy
      (((Wallet.empty ⟨2, 0, 0⟩).depositAll firstDeposits).satisfierBy sameHash) = true := by decide
  exact ⟨can, (pledged.canSatisfy_after_deposits _ _ laterDeposits).2 sameHash can⟩

end Checked

end LockScript
