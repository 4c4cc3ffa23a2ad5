import LockScript.Script.Name
import LockScript.Script.Number

/-!
Scripts as sequences of elements, each an opcode with the data it pushes.

An opcode from 1 to 75 pushes as many bytes; three more take the number of bytes from the one, two or
four bytes after them. A script that ends inside a push is malformed from there on, but what comes
before can be read.
-/

namespace LockScript.Script

/-- One opcode of a script, where it stands, and the data it pushes. -/
structure Element where
  offset : Nat
  opcode : UInt8
  data : Bytes

/-- How a push is malformed. -/
inductive PushFault where
  /-- The opcode needs more bytes than there are. -/
  | tooShort (opcode : UInt8) (needed available : Nat)
  /-- The opcode pushes more bytes than there are, or a negative number of them. -/
  | overrun (opcode : UInt8) (pushed : Int) (available : Nat)
  deriving DecidableEq, Repr

/-- The wording of a fault. -/
def PushFault.message : PushFault → String
  | .tooShort opcode needed available =>
    s!"opcode {opcodeName opcode} requires {needed} bytes, but script only has {available} remaining"
  | .overrun opcode pushed available =>
    s!"opcode {opcodeName opcode} pushes {pushed} bytes, but script only has {available} remaining"

/-- The elements of a script, up to its end or a malformed push. -/
inductive Elements where
  | done
  | malformed (offset : Nat) (fault : PushFault)
  | cons (e : Element) (rest : Elements)

/-- The number that four bytes stand for as a signed word. -/
def signedWord (n : Nat) : Int := if n < 0x80000000 then n else n - 0x100000000

/-- The bytes after an opcode that belong to it: first those that hold the number of bytes pushed, if
the opcode has them, and then the bytes pushed. -/
structure Push where
  width : Nat
  data : Bytes

/-- What the opcode in front of `rest` pushes. -/
def pushOf (opcode : UInt8) (rest : Bytes) : Except PushFault Push :=
  let n := opcode.toNat
  if n = 0 ∨ n > 0x4E then .ok ⟨0, []⟩
  else if n ≤ 0x4B then
    let data := rest.take n
    if data.length < n then .error (.tooShort opcode (n + 1) (rest.length + 1))
    else .ok ⟨0, data⟩
  else
    let width := if n = 0x4C then 1 else if n = 0x4D then 2 else 4
    if rest.length < width then .error (.tooShort opcode width rest.length)
    else
      let pushed := signedWord (ScriptNumber.ofLittleEndian (rest.take width))
      let body := rest.drop width
      if pushed > body.length ∨ pushed < 0 then .error (.overrun opcode pushed body.length)
      else .ok ⟨width, body.take pushed.toNat⟩

/-- The elements of the bytes that begin at `offset`. Each takes at least one byte; the first
argument bounds their number. -/
def elementsFrom : Nat → Nat → Bytes → Elements
  | _, _, [] => .done
  | 0, _, _ => .done
  | bound + 1, offset, opcode :: rest =>
    match pushOf opcode rest with
    | .error fault => .malformed offset fault
    | .ok push =>
      let taken := push.width + push.data.length
      .cons ⟨offset, opcode, push.data⟩ (elementsFrom bound (offset + 1 + taken) (rest.drop taken))

/-- The elements of a script. -/
def elements (script : Bytes) : Elements := elementsFrom script.length 0 script

/-- The words of a disassembled script. -/
def Elements.words : Elements → List String
  | .done => []
  | .malformed _ _ => ["[error]"]
  | .cons e rest => disassembled e.opcode e.data :: rest.words

/-- A script in words. -/
def disassemble (script : Bytes) : String := " ".intercalate (elements script).words

end LockScript.Script
