import LockScript.Text.Utf8

/-!
White space, and text without the white space around it.

There are two notions. A *blank* is a character with the Unicode property `White_Space`; blanks
around a name or a line do not count. A *gap* is one of the four ASCII characters that may separate
the punctuation of an expression.
-/

namespace LockScript

/-- The characters with the Unicode property `White_Space`. -/
def isBlank (c : Char) : Bool :=
  let n := c.toNat
  (9 ≤ n && n ≤ 13) || n = 0x20 || n = 0x85 || n = 0xA0 || n = 0x1680
    || (0x2000 ≤ n && n ≤ 0x200A) || n = 0x2028 || n = 0x2029 || n = 0x202F || n = 0x205F
    || n = 0x3000

/-- Whether a glyph is a blank; a stray byte is none. -/
def Glyph.isBlank : Glyph → Bool
  | .char c => LockScript.isBlank c
  | .stray _ => false

/-- The text without the blanks before its first and after its last other glyph. -/
def trim (text : Bytes) : Bytes :=
  let front := (glyphs text).dropWhile Glyph.isBlank
  ((front.reverse.dropWhile Glyph.isBlank).reverse).flatMap Glyph.bytes

/-- Space, tab, carriage return and line feed. -/
def isGap (b : UInt8) : Bool := b = 0x20 || b = 0x09 || b = 0x0D || b = 0x0A

end LockScript
