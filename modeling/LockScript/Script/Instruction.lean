import LockScript.Script.Opcode
import LockScript.Script.Number
import LockScript.Key.Basic

/-!
Instructions: the script of a fragment before it is bytes.

Keys keep their identity here, so that a script with names in place of keys can still be shown. The
bytes of a script are bounded, and a script with a key that is not known has none.
-/

namespace LockScript

/-- One step of the script of a fragment. -/
inductive Instruction where
  | op (o : Opcode)
  /-- The constant 0 or 1. -/
  | bit (b : Bool)
  | number (n : Nat)
  | data (d : Bytes)
  | key (k : Key)
  deriving DecidableEq

namespace Instruction

/-- An instruction as one word: numbers, data and keys in angle brackets. -/
def text : Instruction → String
  | .op o => o.name
  | .bit false => "0"
  | .bit true => "1"
  | .number n => s!"<{n}>"
  | .data d => s!"<{Hex.shown d}>"
  | .key k => s!"<{shown k.text}>"

/-- The direct push of up to 75 bytes. -/
def pushBytes (d : Bytes) : Bytes := UInt8.ofNat d.length :: d

/-- The shortest push of a number. -/
def numberBytes (n : Nat) : Bytes :=
  if n = 0 then [0]
  else if n ≤ 16 then [UInt8.ofNat (0x50 + n)]
  else pushBytes (ScriptNumber.encode n)

/-- The bytes of an instruction; there are none for a key that is not known. -/
def bytes : Instruction → Bytes
  | .op o => [o.code]
  | .bit false => [0x00]
  | .bit true => [0x51]
  | .number n => numberBytes n
  | .data d => pushBytes d
  | .key (.point p) => pushBytes p.bytes
  | .key (.named _) => []

/-- The name in place of a key, if there is one. -/
def missingKey? : Instruction → Option Bytes
  | .key (.named name) => some name
  | _ => none

end Instruction

namespace Script

/-- The most bytes that a script may have. -/
def maxSize : Nat := 10000

/-- Why instructions have no bytes. -/
inductive Error where
  /-- A key is only known by its name. -/
  | missingKey (name : Bytes)
  /-- There is no room for an opcode. -/
  | noRoomForOpcode
  /-- There is no room for a push of so many bytes, its opcode included. -/
  | noRoomForData (length : Nat)
  /-- There is no room for a number, however short. -/
  | noRoomForNumber
  deriving DecidableEq, Repr

/-- The wording of an error. -/
def Error.message : Error → String
  | .missingKey name => s!"key {quoted name} has no public key"
  | .noRoomForOpcode =>
    s!"adding an opcode would exceed the maximum allowed canonical script length of {maxSize}"
  | .noRoomForData length =>
    s!"adding {length} bytes of data would exceed the maximum allowed canonical script length of "
      ++ s!"{maxSize}"
  | .noRoomForNumber =>
    s!"adding an integer would exceed the maximum allow canonical script length of {maxSize}"

/-- The error of an instruction that does not fit after `size` bytes. -/
def noRoom (size : Nat) : Instruction → Error
  | .op _ => .noRoomForOpcode
  | .bit _ => .noRoomForOpcode
  | .number n =>
    if size + 1 > maxSize then .noRoomForNumber
    else .noRoomForData (Instruction.numberBytes n).length
  | i => .noRoomForData i.bytes.length

/-- The bytes of instructions that follow `size` bytes. -/
def assembleFrom (size : Nat) : List Instruction → Except Error Bytes
  | [] => .ok []
  | i :: rest =>
    let bytes := i.bytes
    if size + bytes.length > maxSize then .error (noRoom size i)
    else match assembleFrom (size + bytes.length) rest with
      | .error e => .error e
      | .ok script => .ok (bytes ++ script)

/-- The bytes of a script. A key that is not known counts before everything else. -/
def assemble (instructions : List Instruction) : Except Error Bytes :=
  match instructions.findSome? Instruction.missingKey? with
  | some name => .error (.missingKey name)
  | none => assembleFrom 0 instructions

end Script

end LockScript
