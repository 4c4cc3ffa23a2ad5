import LockScript.Fragment.Build
import LockScript.Text.Cursor
import LockScript.Expression.Reader

/-!
Reading fragments from text.

Reading and checking go hand in hand: a fragment is checked as soon as its last argument is read, so
the first thing wrong, from left to right, is the one reported.
-/

namespace LockScript.Fragment

/-- The characters of names and wrapper letters. -/
def isNameByte (b : UInt8) : Bool :=
  (byte 'a' ≤ b && b ≤ byte 'z') || (byte '0' ≤ b && b ≤ byte '9') || b = byte '_'

/-- The beginning of a fragment: the letters before its colon, its name and where that stands. -/
structure Opening where
  letters : Bytes
  name : Bytes
  nameOffset : Nat

/-- The failure to find what is wanted at `c`. -/
def unexpectedAt {α : Type} (c : Cursor) (wanted : TextWanted) : Except Error α :=
  textError (.unexpected c.peek? wanted) c.offset

/-- The letters and the name at the front of a fragment. -/
def readOpening (c : Cursor) : Except Error (Opening × Cursor) := do
  let (word, after) := c.upTo fun b => !isNameByte b
  let (letters, name, after) ←
    if after.peek? = some (byte ':') then
      let (name, last) := after.next.upTo fun b => !isNameByte b
      if last.peek? = some (byte ':') then
        textError (.secondColon (word ++ byte ':' :: name)) last.offset
      else if word = [] then textError .noWrappers c.offset
      else .ok (word, name, last)
    else .ok ([], word, after)
  if name = [] then unexpectedAt after .fragmentName
  else .ok (⟨letters, name, after.offset - name.length⟩, after)

/-- A plain word up to the punctuation after it. -/
def readWord (c : Cursor) : Except Error (Arg × Cursor) :=
  let (word, after) := c.upTo Expression.isPunctuation
  match after.peek? with
  | none => unexpectedAt after .separator
  | some b =>
    if b = byte '(' then unexpectedAt after .leafArgument else .ok (.word word c.offset, after)

/-- The arguments of `name` from number `index` up to its closing parenthesis, each read by
`readOne`. An argument is followed by at least one byte of punctuation, so the bytes left bound their
number; the first argument is that bound. -/
def readArgs (readOne : ArgKind → Cursor → Except Error (Arg × Cursor)) (name : Bytes)
    (shape : Shape) : (bound index : Nat) → Cursor → Except Error (List Arg × Cursor)
  | 0, _, c => textError (.unterminated name) c.offset
  | bound + 1, index, c =>
    match shape.kind? index with
    | none => textError (.tooManyArguments name shape.fixed.length) c.offset
    | some kind => do
      let (arg, after) ← readOne kind c
      match after.peek? with
      | none => textError (.unterminated name) after.offset
      | some b =>
        if b = byte ')' then .ok ([arg], after.next)
        else if b = byte ',' then
          let (args, last) ← readArgs readOne name shape bound (index + 1) after.next
          .ok (arg :: args, last)
        else unexpectedAt after .separator

/-- One fragment from the front of the text, with at most `levels` levels of nesting. -/
def readOne (s : Settings) : (levels : Nat) → Cursor → Except Error (Checked × Cursor)
  | 0, c => .error ⟨.nesting s.limit, some c.offset⟩
  | levels + 1, c => do
    let (opening, after) ← readOpening c
    match Head.ofName? opening.name with
    | none => textError (.unknownFragment opening.name) opening.nameOffset
    | some head =>
      let readArg (kind : ArgKind) (c : Cursor) : Except Error (Arg × Cursor) :=
        match kind with
        | .word => readWord c
        | .fragment => (readOne s levels c).map fun (m, after) => (.fragment m, after)
      let (args, last) ←
        if after.peek? = some (byte '(') then
          readArgs readArg opening.name head.shape (after.rest.length + 1) 0 after.next
        else .ok ([], after)
      let m ← build s head opening.name opening.nameOffset args
      let wrapped ← applyLetters s.limit c.offset 0 opening.letters m
      .ok (wrapped, last)

/-- The fragment that the whole text is. -/
def read (s : Settings) (text : Bytes) : Except Error Checked := do
  let (m, after) ← readOne s s.limit.toNat (.start text)
  match after.peek? with
  | none => .ok m
  | some b => textError (.trailing b) after.offset

end LockScript.Fragment
