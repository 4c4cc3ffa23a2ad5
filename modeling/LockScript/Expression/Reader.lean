import LockScript.Expression.Basic
import LockScript.Text.Blank
import LockScript.Text.Cursor
import LockScript.Text.Quoted

/-!
Reading expressions.

Blanks around a name do not count, nor do gaps after an argument list. Nesting is bounded: the limit
is the depth of the deepest argument allowed, the outermost expression having depth 0.
-/

namespace LockScript.Expression

/-- What is wrong with a text that is not an expression. -/
inductive Cause where
  /-- An argument lies deeper than the limit. -/
  | tooDeep (limit : Int)
  /-- A name was expected, and this byte or the end of the text was found. -/
  | missingName (found : Option UInt8)
  /-- A name with a gap inside. -/
  | gapInName (name : Bytes)
  /-- The text ends inside the arguments of `name`. -/
  | unterminated (name : Bytes)
  /-- A byte other than a comma or closing parenthesis after an argument. -/
  | afterArgument (b : UInt8)
  /-- A byte after the end of the whole expression. -/
  | trailing (b : UInt8)

/-- Why and where a text is not an expression. -/
structure Error where
  cause : Cause
  offset : Nat

/-- The wording of a cause. -/
def Cause.message : Cause → String
  | .tooDeep limit => s!"expression nested deeper than {limit}"
  | .missingName (some b) => s!"unexpected {quotedByte b}, expected a name"
  | .missingName none => "unexpected end of input, expected a name"
  | .gapInName name => s!"unexpected whitespace in {quoted name}"
  | .unterminated name => s!"expression {quoted name} does not terminate with )"
  | .afterArgument b => s!"unexpected {quotedByte b}"
  | .trailing b => s!"unexpected {quotedByte b} after end of expression"

/-- The nesting limit where none is chosen. -/
def defaultLimit : Int := 402

/-- The bytes that end a name. -/
def isPunctuation (b : UInt8) : Bool := b = byte '(' || b = byte ',' || b = byte ')'

/-- The name in `word`, which began at `start` and ended at `stop`. -/
def readName (start : Nat) (word : Bytes) (stop : Cursor) : Except Error Bytes :=
  let name := trim word
  if name = [] then .error ⟨.missingName stop.peek?, stop.offset⟩
  else if name.any isGap then .error ⟨.gapInName name, start⟩
  else .ok name

/-- The arguments of `name` up to its closing parenthesis, each read by `readOne`. An argument is
followed by at least one byte of punctuation, so the bytes left bound their number; the first
argument is that bound. -/
def readArgs (readOne : Cursor → Except Error (Expression × Cursor)) (name : Bytes) :
    Nat → Cursor → Except Error (List Expression × Cursor)
  | 0, c => .error ⟨.unterminated name, c.offset⟩
  | bound + 1, c => do
    let (arg, after) ← readOne c
    let after := after.skip isGap
    match after.peek? with
    | none => .error ⟨.unterminated name, after.offset⟩
    | some b =>
      if b = byte ',' then
        let (args, stop) ← readArgs readOne name bound after.next
        .ok (arg :: args, stop)
      else if b = byte ')' then .ok ([arg], after.next)
      else .error ⟨.afterArgument b, after.offset⟩

/-- One expression from the front of the text, with at most `levels` levels of nesting. -/
def readOne (limit : Int) : (levels : Nat) → Cursor → Except Error (Expression × Cursor)
  | 0, c => .error ⟨.tooDeep limit, c.offset⟩
  | levels + 1, c => do
    let (word, stop) := c.upTo isPunctuation
    let name ← readName c.offset word stop
    if stop.peek? = some (byte '(') then
      let (args, last) ← readArgs (readOne limit levels) name (stop.rest.length + 1) stop.next
      .ok (.node name c.offset args, last)
    else .ok (.node name c.offset [], stop)

/-- The expression that the whole text is, nested no deeper than `limit`. -/
def read (limit : Int) (text : Bytes) : Except Error Expression := do
  let (e, after) ← readOne limit (limit + 1).toNat (.start text)
  let after := after.skip isGap
  match after.peek? with
  | none => .ok e
  | some b => .error ⟨.trailing b, after.offset⟩

end LockScript.Expression
