import LockScript.Text.Bytes

/-!
Decimal text: digits only, without sign or separator. Leading zeros may be read but are not written.
-/

namespace LockScript.Decimal

/-- The digits of a number, without leading zeros. -/
def ofNat (n : Nat) : Bytes := (Nat.toDigits 10 n).map byte

/-- The digits of a number, after a minus sign if it is negative. -/
def ofInt (n : Int) : Bytes :=
  if n < 0 then byte '-' :: ofNat n.natAbs else ofNat n.natAbs

/-- Whether a byte is a decimal digit. -/
def isDigit (b : UInt8) : Bool := 0x30 ≤ b && b ≤ 0x39

/-- The value of a sequence of digits after the digits of `high`. -/
def valueFrom (high : Nat) : Bytes → Nat
  | [] => high
  | b :: rest => valueFrom (high * 10 + (b.toNat - 0x30)) rest

/-- The number a text of one or more digits stands for. -/
def value? (text : Bytes) : Option Nat :=
  if text ≠ [] ∧ text.all isDigit then some (valueFrom 0 text) else none

/-- The number a text of digits stands for, if it is below `2 ^ bits`. -/
def below? (bits : Nat) (text : Bytes) : Option Nat :=
  match value? text with
  | some n => if n < 1 <<< bits then some n else none
  | none => none

end LockScript.Decimal
