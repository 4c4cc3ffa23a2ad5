import LockScript.Text.Bytes

/-!
Positions in a text that is being read.
-/

namespace LockScript

/-- A place in a text: how many bytes lie before it, and the bytes after it. -/
structure Cursor where
  offset : Nat
  rest : Bytes

namespace Cursor

/-- The place before the first byte. -/
def start (text : Bytes) : Cursor := ⟨0, text⟩

/-- The byte at this place, if the text does not end here. -/
def peek? (c : Cursor) : Option UInt8 := c.rest.head?

/-- The place one byte further on. -/
def next (c : Cursor) : Cursor :=
  match c.rest with
  | [] => c
  | _ :: rest => ⟨c.offset + 1, rest⟩

/-- The bytes before the first one that satisfies `stop`, and the place of that one. -/
def upTo (stop : UInt8 → Bool) (c : Cursor) : Bytes × Cursor :=
  let (word, rest) := splitBefore stop c.rest
  (word, ⟨c.offset + word.length, rest⟩)

/-- The place after the bytes that satisfy `p`. -/
def skip (p : UInt8 → Bool) (c : Cursor) : Cursor := (c.upTo fun b => !p b).2

/-- The length of the whole text. It does not change while reading. -/
def total (c : Cursor) : Nat := c.offset + c.rest.length

@[simp] theorem total_start (text : Bytes) : (start text).total = text.length := by
  simp [total, start]

@[simp] theorem total_next (c : Cursor) : c.next.total = c.total := by
  unfold next total
  split
  · simp_all
  · simp_all
    omega

@[simp] theorem total_upTo (stop : UInt8 → Bool) (c : Cursor) : (c.upTo stop).2.total = c.total := by
  have h := congrArg List.length (splitBefore_append stop c.rest)
  simp only [List.length_append] at h
  simp only [upTo, total]
  omega

end Cursor

end LockScript
