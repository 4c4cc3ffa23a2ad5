import LockScript.Digest.Basic
import LockScript.Text.Hex

/-!
Compressed points of the curve secp256k1, y² = x³ + 7 over the integers modulo a prime.

A point is written as one byte for the parity of y, 2 or 3, and the 32 bytes of x. A `Point` holds
bytes that pass this check, so its encoding is itself.
-/

namespace LockScript

namespace Curve

/-- The prime that the field of the curve is counted modulo, `2 ^ 256 - 2 ^ 32 - 977`. -/
def prime : Nat := 0xFFFFFFFFFFFFFFFFFFFFFFFFFFFFFFFFFFFFFFFFFFFFFFFFFFFFFFFEFFFFFC2F

/-- `base ^ exponent * acc` modulo `modulus`, by squaring, for an exponent below `2 ^ bits`. -/
def powMod (modulus : Nat) : (bits : Nat) → (base exponent acc : Nat) → Nat
  | 0, _, _, acc => acc
  | bits + 1, base, exponent, acc =>
    powMod modulus bits (base * base % modulus) (exponent / 2)
      (if exponent % 2 = 1 then acc * base % modulus else acc)

/-- Whether a number below the prime is the square of another. As the prime is 3 modulo 4, a square
has the power to (prime + 1) / 4 as a root. -/
def isSquare (n : Nat) : Bool :=
  let root := powMod prime 256 n ((prime + 1) / 4) 1
  root * root % prime = n

/-- The number that bytes stand for, the first being the most significant. -/
def ofBigEndian (data : Bytes) : Nat := data.foldl (fun n b => n * 256 + b.toNat) 0

end Curve

namespace Point

/-- Why bytes are not a compressed point. -/
inductive Error where
  /-- The encoding does not take 33 bytes. -/
  | length (n : Nat)
  /-- The first byte is neither 2 nor 3. -/
  | format (first : UInt8)
  /-- The coordinate is not below the prime. -/
  | coordinateTooLarge
  /-- No point of the curve has the coordinate with these bytes. -/
  | notOnCurve (x : Bytes)
  deriving DecidableEq, Repr

/-- The number of bytes of a compressed point. -/
def size : Nat := 33

/-- The first rule of the encoding that the bytes break, if there is one. -/
def fault? (data : Bytes) : Option Error :=
  if data.length ≠ size then some (.length data.length)
  else match data with
    | [] => some (.length 0)
    | first :: x =>
      let n := Curve.ofBigEndian x
      if first ≠ 2 ∧ first ≠ 3 then some (.format first)
      else if n ≥ Curve.prime then some .coordinateTooLarge
      else if Curve.isSquare ((n * n * n + 7) % Curve.prime) then none
      else some (.notOnCurve x)

/-- The wording of a fault. -/
def Error.message : Error → String
  | .length n => s!"key has length {n}, expected a {size} byte compressed key"
  | .format first =>
    "invalid public key: unsupported format: " ++ String.ofList (Nat.toDigits 16 first.toNat)
  | .coordinateTooLarge => "invalid public key: x >= field prime"
  | .notOnCurve x =>
    "invalid public key: x coordinate " ++ Hex.shown x ++ " is not on the secp256k1 curve"

end Point

/-- A point of the curve, by its compressed encoding. -/
structure Point where
  bytes : Bytes
  valid : Point.fault? bytes = none
  deriving DecidableEq

namespace Point

/-- A point takes 33 bytes. -/
@[simp] theorem length_bytes (p : Point) : p.bytes.length = 33 := by
  have h := p.valid
  unfold fault? at h
  split at h
  · cases h
  · next eq => simpa [size] using eq

/-- The point that the bytes encode. -/
def ofBytes (data : Bytes) : Except Error Point :=
  match h : fault? data with
  | none => .ok ⟨data, h⟩
  | some fault => .error fault

/-- A point is read back from its encoding. -/
@[simp] theorem ofBytes_bytes (p : Point) : ofBytes p.bytes = .ok p := by
  unfold ofBytes
  split
  · rfl
  · next h => simp [p.valid] at h

end Point

end LockScript
