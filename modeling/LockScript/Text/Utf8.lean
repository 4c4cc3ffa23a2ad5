import LockScript.Text.Bytes

/-!
UTF-8 with strays.

Any sequence of bytes is a sequence of glyphs: well formed characters, and the bytes that belong to
none. Writing the glyphs back gives the bytes again.
-/

namespace LockScript

/-- One step of reading UTF-8: a character, or a byte that no character is made of. -/
inductive Glyph where
  | char (c : Char)
  | stray (b : UInt8)
  deriving DecidableEq, Repr

namespace Glyph

/-- The bytes a glyph was read from. -/
def bytes : Glyph → Bytes
  | .char c => String.utf8EncodeChar c
  | .stray b => [b]

/-- The character that stands for a glyph when it is shown: a stray byte shows as U+FFFD. -/
def shown : Glyph → Char
  | .char c => c
  | .stray _ => '�'

end Glyph

/-- A byte that continues a character begun before it. -/
def isContinuation (b : UInt8) : Bool := 0x80 ≤ b && b ≤ 0xBF

/-- The low six bits of a continuation byte. -/
private def payload (b : UInt8) : Nat := (b &&& 0x3F).toNat

/-- The glyph at the front of `b :: rest` and the number of bytes it takes. The second byte of a
longer character is bounded more tightly where its first byte alone would allow an overlong form, a
surrogate or a value past U+10FFFF. -/
def firstGlyph (b : UInt8) (rest : Bytes) : Glyph × Nat :=
  let single := (Glyph.stray b, 1)
  if b < 0x80 then (.char (Char.ofNat b.toNat), 1)
  else if b < 0xC2 then single
  else if b < 0xE0 then
    match rest with
    | b₁ :: _ =>
      if isContinuation b₁ then
        (.char (Char.ofNat ((b &&& 0x1F).toNat * 64 + payload b₁)), 2)
      else single
    | _ => single
  else if b < 0xF0 then
    match rest with
    | b₁ :: b₂ :: _ =>
      let low : UInt8 := if b = 0xE0 then 0xA0 else 0x80
      let high : UInt8 := if b = 0xED then 0x9F else 0xBF
      if low ≤ b₁ && b₁ ≤ high && isContinuation b₂ then
        (.char (Char.ofNat ((b &&& 0x0F).toNat * 4096 + payload b₁ * 64 + payload b₂)), 3)
      else single
    | _ => single
  else if b < 0xF5 then
    match rest with
    | b₁ :: b₂ :: b₃ :: _ =>
      let low : UInt8 := if b = 0xF0 then 0x90 else 0x80
      let high : UInt8 := if b = 0xF4 then 0x8F else 0xBF
      if low ≤ b₁ && b₁ ≤ high && isContinuation b₂ && isContinuation b₃ then
        (.char (Char.ofNat ((b &&& 0x07).toNat * 262144 + payload b₁ * 4096 + payload b₂ * 64
          + payload b₃)), 4)
      else single
    | _ => single
  else single

/-- The glyphs of a text after the first `skip` bytes, which belong to a glyph already read. -/
def glyphsAfter : Nat → Bytes → List Glyph
  | _, [] => []
  | skip + 1, _ :: rest => glyphsAfter skip rest
  | 0, b :: rest =>
    let first := firstGlyph b rest
    first.1 :: glyphsAfter (first.2 - 1) rest

/-- The glyphs of a text. -/
def glyphs (text : Bytes) : List Glyph := glyphsAfter 0 text

/-- The text as a string, with U+FFFD in place of each stray byte. -/
def shown (text : Bytes) : String := String.ofList ((glyphs text).map Glyph.shown)

/-- Whether every byte of the text belongs to a character. -/
def isUtf8 (text : Bytes) : Bool :=
  (glyphs text).all fun
    | .char _ => true
    | .stray _ => false

end LockScript
