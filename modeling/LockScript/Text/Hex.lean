import LockScript.Text.Printable

/-!
Hexadecimal text: two digits to a byte, written in lower case, read in either.

Main statement: reading what was written gives the bytes back.
-/

namespace LockScript.Hex

/-- The lower case digit of a number below 16. -/
def digit (n : UInt8) : UInt8 := if n < 10 then 0x30 + n else 0x57 + n

/-- The number a digit stands for. -/
def value? (b : UInt8) : Option UInt8 :=
  if 0x30 ≤ b && b ≤ 0x39 then some (b - 0x30)
  else if 0x61 ≤ b && b ≤ 0x66 then some (b - 0x57)
  else if 0x41 ≤ b && b ≤ 0x46 then some (b - 0x37)
  else none

/-- The two digits of each byte. -/
def encode : Bytes → Bytes
  | [] => []
  | b :: rest => digit (b / 16) :: digit (b % 16) :: encode rest

/-- The digits as a string. -/
def shown (data : Bytes) : String :=
  String.ofList ((encode data).map fun b => Char.ofNat b.toNat)

/-- Why a text is not hexadecimal. -/
inductive Error where
  /-- All bytes are digits, but their number is odd. -/
  | oddLength
  /-- The first byte that is no digit. -/
  | badDigit (b : UInt8)
  deriving DecidableEq, Repr

/-- A code point in the form `U+007A 'z'`; one that is not printable without the character. -/
def codePoint (c : Char) : String :=
  let digits := (Nat.toDigits 16 c.toNat).map Char.toUpper
  let padded := List.replicate (4 - digits.length) '0' ++ digits
  let name := "U+" ++ String.ofList padded
  if isPrintable c then name ++ " '" ++ String.singleton c ++ "'" else name

/-- The wording of a reading error. -/
def Error.message : Error → String
  | .oddLength => "encoding/hex: odd length hex string"
  | .badDigit b => "encoding/hex: invalid byte: " ++ codePoint (Char.ofNat b.toNat)

/-- The bytes that pairs of digits stand for. A byte that is no digit is reported before a length
that is odd. -/
def decode : Bytes → Except Error Bytes
  | [] => .ok []
  | [a] => match value? a with
    | some _ => .error .oddLength
    | none => .error (.badDigit a)
  | a :: b :: rest => match value? a, value? b with
    | none, _ => .error (.badDigit a)
    | some _, none => .error (.badDigit b)
    | some high, some low => match decode rest with
      | .ok data => .ok ((high * 16 + low) :: data)
      | .error e => .error e

/-- A digit stands for the number it was written for. -/
theorem value?_digit {n : UInt8} (small : n.toNat < 16) : value? (digit n) = some n := by
  have all : ∀ m : Fin 16, value? (digit (UInt8.ofNat m)) = some (UInt8.ofNat m) := by decide
  simpa using all ⟨n.toNat, small⟩

/-- Reading what was written gives the bytes back. -/
theorem decode_encode (data : Bytes) : decode (encode data) = .ok data := by
  induction data with
  | nil => rfl
  | cons b rest ih =>
    have size := b.toNat_lt
    have high : (b / 16).toNat < 16 := by simp; omega
    have low : (b % 16).toNat < 16 := by simp; omega
    have whole : b / 16 * 16 + b % 16 = b := by
      apply UInt8.toNat_inj.1
      simp; omega
    simp only [encode, decode, value?_digit high, value?_digit low, ih, whole]

@[simp] theorem length_encode (data : Bytes) : (encode data).length = 2 * data.length := by
  induction data with
  | nil => rfl
  | cons b rest ih => simp [encode, ih]; omega

end LockScript.Hex
