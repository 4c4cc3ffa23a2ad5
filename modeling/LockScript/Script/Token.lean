import LockScript.Script.Opcode
import LockScript.Script.Element
import LockScript.Digest.Basic

/-!
Tokens: the words that a script is taken apart into before it is decoded.

VERIFY forms count as two tokens, so that each opcode has one reading. Pushes of 20, 32 and 33 bytes
are hashes and keys; all others have to be numbers from 0 to 2³² - 1 in their shortest form. Since
scripts are decoded from their end, the tokens come last first.
-/

namespace LockScript

/-- What a token says. -/
inductive Symbol where
  | op (o : Opcode)
  | number (n : UInt32)
  | push20 (data : Digest 20)
  | push32 (data : Digest 32)
  | push33 (data : Digest 33)
  deriving DecidableEq

/-- The text of a symbol in messages. -/
def Symbol.text : Symbol → String
  | .op o => o.name
  | .number n => s!"<{n.toNat}>"
  | .push20 data => s!"<{Hex.shown data.bytes}>"
  | .push32 data => s!"<{Hex.shown data.bytes}>"
  | .push33 data => s!"<{Hex.shown data.bytes}>"

/-- A symbol and the offset of the opcode it came from. -/
structure Token where
  symbol : Symbol
  offset : Nat

namespace Token

/-- Why a script cannot be taken apart into tokens. -/
inductive Cause where
  /-- VERIFY after an opcode that has a VERIFY form. -/
  | separateVerify (o : Opcode)
  /-- A push that is no key, hash or number by its length. -/
  | oddPush (length : Nat)
  /-- A number up to 16 that is pushed as data. -/
  | smallNumber (n : UInt8)
  /-- A number in a longer form than it needs. -/
  | longNumber (data : Bytes)
  /-- A number that is negative or too large. -/
  | numberRange (n : Int)
  /-- An opcode that no fragment has. -/
  | foreignOpcode (opcode : UInt8)
  /-- A push beyond the end of the script. -/
  | malformedPush (fault : Script.PushFault)

/-- The wording of a cause. -/
def Cause.message : Cause → String
  | .separateVerify o => s!"{o.name} VERIFY must be written as {o.name}VERIFY"
  | .oddPush length => s!"push of {length} bytes is not a key, hash or number"
  | .smallNumber n => s!"number {n.toNat} is not minimally pushed"
  | .longNumber data =>
    s!"invalid script number {Hex.shown data}: numeric value encoded as {Hex.shown data} is not "
      ++ "minimally encoded"
  | .numberRange n => s!"script number {n} is out of range"
  | .foreignOpcode opcode =>
    s!"opcode {Script.disassembled opcode []} is not allowed in miniscript"
  | .malformedPush fault => fault.message

/-- The longest push that is read as a number: 2³² - 1 takes five bytes. -/
def maxNumberLength : Nat := 5

/-- The symbol of a number that is pushed as data. -/
def ofNumber (data : Bytes) : Except Cause Symbol :=
  if !ScriptNumber.isMinimal data then .error (.longNumber data)
  else
    let n := ScriptNumber.decode data
    if n < 0 ∨ n ≥ 0x100000000 then .error (.numberRange n)
    else .ok (.number (UInt32.ofNat n.toNat))

/-- The symbol of a direct push. -/
def ofPush (data : Bytes) : Except Cause Symbol :=
  if h : data.length = 20 then .ok (.push20 ⟨data, h⟩)
  else if h : data.length = 32 then .ok (.push32 ⟨data, h⟩)
  else if h : data.length = 33 then .ok (.push33 ⟨data, h⟩)
  else if data.length > maxNumberLength then .error (.oddPush data.length)
  else match data with
    | [b] => if b ≤ 16 then .error (.smallNumber b) else ofNumber data
    | _ => ofNumber data

/-- The symbols of one element that follows the symbol `previous`. -/
def symbolsOf (previous : Option Symbol) (e : Script.Element) : Except Cause (List Symbol) :=
  match Opcode.ofCode? e.opcode with
  | some o =>
    match o, previous with
    | .verify, some (.op before) =>
      if before.verifyForm?.isSome then .error (.separateVerify before) else .ok [.op .verify]
    | _, _ => .ok (o.simpler.map .op)
  | none =>
    let n := e.opcode.toNat
    if n = 0 then .ok [.number 0]
    else if 0x51 ≤ n ∧ n ≤ 0x60 then .ok [.number (UInt32.ofNat (n - 0x50))]
    else if n ≤ 0x4B then (ofPush e.data).map ([·])
    else if n ≤ 0x4E then .error (.oddPush e.data.length)
    else .error (.foreignOpcode e.opcode)

/-- The tokens of a script, the last first, in front of the tokens before it. -/
def lexOnto (before : List Token) : Script.Elements → Except (Cause × Nat) (List Token)
  | .done => .ok before
  | .malformed offset fault => .error (.malformedPush fault, offset)
  | .cons e rest =>
    match symbolsOf (before.head?.map symbol) e with
    | .error cause => .error (cause, e.offset)
    | .ok symbols => lexOnto (symbols.reverse.map (fun s => ⟨s, e.offset⟩) ++ before) rest

/-- The tokens of a script, the last first; or what is wrong, and where. -/
def lex (script : Bytes) : Except (Cause × Nat) (List Token) :=
  lexOnto [] (Script.elements script)

end Token

end LockScript
