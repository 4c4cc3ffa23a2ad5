import LockScript.Text.Utf8
import LockScript.Text.Printable
import LockScript.Text.Hex

/-!
Quoted text in messages: printable characters as they are, the quote and the backslash after a
backslash, the rest by an escape. Stray bytes of a text show as `\xff`.
-/

namespace LockScript

/-- The number in lower case hexadecimal with at least `width` digits. -/
private def paddedHex (width n : Nat) : List Char :=
  let digits := Nat.toDigits 16 n
  List.replicate (width - digits.length) '0' ++ digits

/-- A character between two `quote`s. -/
def escape (quote c : Char) : List Char :=
  if c = quote ∨ c = '\\' then ['\\', c]
  else if isPrintable c then [c]
  else match c.toNat with
    | 0x07 => ['\\', 'a']
    | 0x08 => ['\\', 'b']
    | 0x09 => ['\\', 't']
    | 0x0A => ['\\', 'n']
    | 0x0B => ['\\', 'v']
    | 0x0C => ['\\', 'f']
    | 0x0D => ['\\', 'r']
    | n =>
      if n < 0x20 ∨ n = 0x7F then '\\' :: 'x' :: paddedHex 2 n
      else if n < 0x10000 then '\\' :: 'u' :: paddedHex 4 n
      else '\\' :: 'U' :: paddedHex 8 n

/-- A glyph between two double quotes. -/
def Glyph.escaped : Glyph → List Char
  | .char c => escape '"' c
  | .stray b => '\\' :: 'x' :: paddedHex 2 b.toNat

/-- A text in double quotes. -/
def quoted (text : Bytes) : String :=
  String.ofList ('"' :: (glyphs text).flatMap Glyph.escaped ++ ['"'])

/-- The single quote. -/
def apostrophe : Char := Char.ofNat 0x27

/-- A character in single quotes. -/
def quotedChar (c : Char) : String :=
  String.ofList (apostrophe :: escape apostrophe c ++ [apostrophe])

/-- A byte in single quotes, shown as the character with its code point. -/
def quotedByte (b : UInt8) : String := quotedChar (Char.ofNat b.toNat)

end LockScript
