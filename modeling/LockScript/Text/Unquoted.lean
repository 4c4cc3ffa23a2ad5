import LockScript.Text.Utf8
import LockScript.Text.Hex

/-!
Taking the quotes off a quoted text.

Between the quotes a backslash begins an escape: a letter for a control character, two, four or eight
hexadecimal digits after x, u or U, three octal digits, a backslash or a double quote. Neither a line
break nor a double quote may stand there by itself. Stray bytes turn into U+FFFD.
-/

namespace LockScript

/-- The number that some hexadecimal digits stand for. -/
def hexNumber? (digits : Bytes) : Option Nat :=
  digits.foldl (fun high b => do return (← high) * 16 + (← Hex.value? b).toNat) (some 0)

/-- The number that some octal digits stand for. -/
def octalNumber? (digits : Bytes) : Option Nat :=
  digits.foldl (fun high b => do
    if 0x30 ≤ b ∧ b ≤ 0x37 then return (← high) * 8 + (b.toNat - 0x30) else none) (some 0)

/-- The bytes of the character with this code point, if there is one. -/
def codePointBytes? (n : Nat) : Option Bytes :=
  if n.isValidChar then some (String.utf8EncodeChar (Char.ofNat n)) else none

/-- What an escape stands for, and how many bytes it takes after the backslash and its letter. -/
def escapeOf? (letter : UInt8) (rest : Bytes) : Option (Bytes × Nat) :=
  let digits (n : Nat) : Option Nat := if rest.length < n then none else hexNumber? (rest.take n)
  if letter = byte 'a' then some ([0x07], 0)
  else if letter = byte 'b' then some ([0x08], 0)
  else if letter = byte 'f' then some ([0x0C], 0)
  else if letter = byte 'n' then some ([0x0A], 0)
  else if letter = byte 'r' then some ([0x0D], 0)
  else if letter = byte 't' then some ([0x09], 0)
  else if letter = byte 'v' then some ([0x0B], 0)
  else if letter = byte '\\' then some ([letter], 0)
  else if letter = byte '"' then some ([letter], 0)
  else if letter = byte 'x' then (digits 2).map fun n => ([UInt8.ofNat n], 2)
  else if letter = byte 'u' then ((digits 4).bind codePointBytes?).map (·, 4)
  else if letter = byte 'U' then ((digits 8).bind codePointBytes?).map (·, 8)
  else if rest.length < 2 then none
  else match octalNumber? (letter :: rest.take 2) with
    | some n => if n < 256 then some ([UInt8.ofNat n], 2) else none
    | none => none

/-- The text between an opening quote and the closing one, which has to be the last byte. The first
`skip` bytes belong to what has been read already. -/
def unquotedAfter : (skip : Nat) → Bytes → Option Bytes
  | _, [] => none
  | skip + 1, _ :: rest => unquotedAfter skip rest
  | 0, b :: rest =>
    if b = byte '"' then if rest = [] then some [] else none
    else if b = 0x0A then none
    else if b = byte '\\' then match rest with
      | [] => none
      | letter :: more => match escapeOf? letter more with
        | none => none
        | some (bytes, taken) => (unquotedAfter (taken + 1) rest).map (bytes ++ ·)
    else
      let (glyph, size) := firstGlyph b rest
      (unquotedAfter (size - 1) rest).map (String.utf8EncodeChar glyph.shown ++ ·)

/-- A text without its double quotes; one that does not begin with a quote is left as it is. -/
def unquoted? : Bytes → Option Bytes
  | [] => some []
  | b :: rest => if b = byte '"' then unquotedAfter 0 rest else some (b :: rest)

end LockScript
