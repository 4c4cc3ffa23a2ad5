import LockScript.Verification.Claimed
import LockScript.Verification.Error
import LockScript.Verification.Memory

/-!
Verification: whether the claims in a tree are what its parts really have.

No claim is trusted. What was found for a fragment may be remembered by its canonical text, so that a
fragment met again is only compared. A memory may forget, and it may be missing altogether.
-/

namespace LockScript

namespace Verification

/-- A computation that may fail and uses a memory, which keeps what it learned before a failure. -/
abbrev Run (σ : Type) := ExceptT Error (StateM (Memory σ))

variable {σ : Type}

/-- The facts of `f`, or the error that it has none. -/
def judge (f : Fragment) (found : Except Refusal (Facts Int64)) : Run σ (Facts Int64) :=
  match f.blame found with
  | .ok facts => pure facts
  | .error e => throw (.untyped e)

/-- Accepts a claim that is what was found. -/
def checkClaim (c : Claimed) (found : Facts Int64) : Run σ Unit :=
  if c.claim.type ≠ found.type then throw (.type c.fragment c.claim.type found.type)
  else if c.claim.cost ≠ found.cost then throw (.cost c.fragment c.claim.cost found.cost)
  else pure ()

variable [Cache σ Bytes (Facts Int64)]

/-- What is remembered of a fragment. -/
def remembered? (f : Fragment) : Run σ (Option (Facts Int64)) := fun memory =>
  match memory with
  | none => (.ok none, none)
  | some known =>
    let (found, known) := Cache.lookup known f.text
    (.ok found, some known)

/-- Remembers the facts of a fragment. -/
def remember (f : Fragment) (facts : Facts Int64) : Run σ Unit := fun memory =>
  (.ok (), memory.map fun known => Cache.insert known f.text facts)

/-- The facts of a fragment, remembered or else found by `find`. -/
def rememberedOr (f : Fragment) (find : Run σ (Facts Int64)) : Run σ (Facts Int64) := do
  match ← remembered? f with
  | some facts => pure facts
  | none => find

mutual

/-- The facts of a fragment from those of its parts, which are remembered or found again. -/
def derive : Fragment → Run σ (Facts Int64)
  | .leaf l => judge (.leaf l) (Facts.leaf l)
  | .wrap w x => do
    let fx ← rememberedOr x (derive x)
    judge (.wrap w x) (Facts.wrap w fx)
  | .pair op x y => do
    let fx ← rememberedOr x (derive x)
    let fy ← rememberedOr y (derive y)
    judge (.pair op x y) (Facts.pair op fx fy)
  | .andor x y z => do
    let fx ← rememberedOr x (derive x)
    let fy ← rememberedOr y (derive y)
    let fz ← rememberedOr z (derive z)
    judge (.andor x y z) (Facts.andor fx fy fz)
  | .thresh k subs =>
    match Facts.checkThreshold k subs.length with
    | .error m => throw (.untyped ⟨.thresh k subs, .mistyped m⟩)
    | .ok () => do
      let facts ← deriveSubs (.thresh k subs) 0 subs
      judge (.thresh k subs) (Facts.ofSubs k facts)

/-- The facts of the parts of the threshold `whole` from index `i` on, as far as they fit it. -/
def deriveSubs (whole : Fragment) : (i : Nat) → List Fragment → Run σ (List (Facts Int64))
  | _, [] => pure []
  | i, x :: rest => do
    let facts ← rememberedOr x (derive x)
    match Correctness.checkSub i facts.type.corr with
    | .error m => throw (.untyped ⟨whole, .mistyped m⟩)
    | .ok () => do
      let others ← deriveSubs whole (i + 1) rest
      pure (facts :: others)

end

/-- Compares a claim with what is remembered. If nothing is, the parts are verified first, and what is
found is remembered once the claim has been compared with it. -/
def settle (c : Claimed) (verifyParts : Run σ Unit) : Run σ Unit := do
  match ← remembered? c.fragment with
  | some facts => checkClaim c facts
  | none => do
    verifyParts
    let facts ← derive c.fragment
    checkClaim c facts
    remember c.fragment facts

mutual

/-- Verifies the claims of a tree. -/
def verify : Claimed → Run σ Unit
  | .leaf claim l => settle (.leaf claim l) (pure ())
  | .wrap claim w x => settle (.wrap claim w x) (verify x)
  | .pair claim op x y => settle (.pair claim op x y) (do verify x; verify y)
  | .andor claim x y z => settle (.andor claim x y z) (do verify x; verify y; verify z)
  | .thresh claim k subs => settle (.thresh claim k subs) (verifyAll subs)

/-- Verifies the claims of several trees in order. -/
def verifyAll : List Claimed → Run σ Unit
  | [] => pure ()
  | x :: rest => do verify x; verifyAll rest

end

end Verification

/-- Whether the claims of a tree are right, and the memory afterwards. -/
def Claimed.verify {σ : Type} [Cache σ Bytes (Facts Int64)] (c : Claimed) (memory : Memory σ) :
    Except Verification.Error Unit × Memory σ :=
  (Verification.verify c).run.run memory

end LockScript
