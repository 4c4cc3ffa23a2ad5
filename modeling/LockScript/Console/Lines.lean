import LockScript.Text.Blank

/-!
Reading inputs from lines of text.
-/

namespace LockScript.Lines

/-- Lines have to be shorter than this many bytes. -/
def limit : Nat := 65536

/-- A line that is too long. -/
structure TooLong where
  length : Nat

/-- The wording of the error. -/
def TooLong.message (_ : TooLong) : String := "bufio.Scanner: token too long"

/-- The inputs in a text: its lines without blanks around them, leaving out those with nothing else. -/
def read (text : Bytes) : Except TooLong (List Bytes) :=
  let lines := fields 0x0A text
  match lines.find? fun line => limit ≤ line.length with
  | some line => .error ⟨line.length⟩
  | none => .ok ((lines.map trim).filter (· ≠ []))

/-- The inputs given, or if there are none those in the text. -/
def inputs (given : List Bytes) (text : Bytes) : Except TooLong (List Bytes) :=
  if given = [] then read text else .ok given

end LockScript.Lines
