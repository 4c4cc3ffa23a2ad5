/-!
Text as bytes.

Everything this library reads is a sequence of bytes: offsets count bytes, and input that is not
UTF-8 is still text, only text that no name or number matches. What it writes for a reader to read
back is bytes too, so that reading and writing meet in one type. Messages are strings.
-/

namespace LockScript

/-- Text as the sequence of its bytes. -/
abbrev Bytes := List UInt8

/-- The bytes of a string. -/
def utf8 (s : String) : Bytes := s.toUTF8.toList

/-- The byte of an ASCII character. -/
def byte (c : Char) : UInt8 := c.toNat.toUInt8

/-- The pieces in order, with `separator` between each two neighbours. -/
def joinWith (separator : Bytes) : List Bytes → Bytes
  | [] => []
  | [piece] => piece
  | piece :: rest => piece ++ separator ++ joinWith separator rest

@[simp] theorem joinWith_nil (separator : Bytes) : joinWith separator [] = [] := rfl

@[simp] theorem joinWith_singleton (separator piece : Bytes) :
    joinWith separator [piece] = piece := rfl

@[simp] theorem joinWith_cons_cons (separator piece next : Bytes) (rest : List Bytes) :
    joinWith separator (piece :: next :: rest)
      = piece ++ separator ++ joinWith separator (next :: rest) := rfl

/-- The text up to the first byte that satisfies `stop`, and the text from that byte on. -/
def splitBefore (stop : UInt8 → Bool) : Bytes → Bytes × Bytes
  | [] => ([], [])
  | b :: rest =>
    if stop b then ([], b :: rest)
    else
      let cut := splitBefore stop rest
      (b :: cut.1, cut.2)

/-- Cutting loses nothing. -/
theorem splitBefore_append (stop : UInt8 → Bool) (text : Bytes) :
    (splitBefore stop text).1 ++ (splitBefore stop text).2 = text := by
  induction text with
  | nil => rfl
  | cons b rest ih =>
    by_cases h : stop b <;> simp [splitBefore, h, ih]

/-- The fields between the bytes equal to `separator`: one more than there are separators. -/
def fields (separator : UInt8) : Bytes → List Bytes
  | [] => [[]]
  | b :: rest =>
    if b = separator then [] :: fields separator rest
    else match fields separator rest with
      | [] => [[b]]
      | first :: others => (b :: first) :: others

end LockScript
