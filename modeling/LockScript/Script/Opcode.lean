import LockScript.Text.Bytes

/-!
The opcodes that fragments are made of.
-/

namespace LockScript

/-- An opcode of the script of a fragment. -/
inductive Opcode where
  | ifOp
  | notIf
  | elseOp
  | endIf
  | verify
  | toAltStack
  | fromAltStack
  | ifDup
  | dup
  | swap
  | size
  | equal
  | equalVerify
  | zeroNotEqual
  | add
  | boolAnd
  | boolOr
  | ripemd160
  | sha256
  | hash160
  | hash256
  | checkSig
  | checkSigVerify
  | checkMultiSig
  | checkMultiSigVerify
  | checkLockTimeVerify
  | checkSequenceVerify
  deriving DecidableEq, Repr

namespace Opcode

/-- All opcodes. -/
def all : List Opcode := [.ifOp, .notIf, .elseOp, .endIf, .verify, .toAltStack, .fromAltStack,
  .ifDup, .dup, .swap, .size, .equal, .equalVerify, .zeroNotEqual, .add, .boolAnd, .boolOr,
  .ripemd160, .sha256, .hash160, .hash256, .checkSig, .checkSigVerify, .checkMultiSig,
  .checkMultiSigVerify, .checkLockTimeVerify, .checkSequenceVerify]

/-- The byte of an opcode. -/
def code : Opcode → UInt8
  | .ifOp => 0x63
  | .notIf => 0x64
  | .elseOp => 0x67
  | .endIf => 0x68
  | .verify => 0x69
  | .toAltStack => 0x6B
  | .fromAltStack => 0x6C
  | .ifDup => 0x73
  | .dup => 0x76
  | .swap => 0x7C
  | .size => 0x82
  | .equal => 0x87
  | .equalVerify => 0x88
  | .zeroNotEqual => 0x92
  | .add => 0x93
  | .boolAnd => 0x9A
  | .boolOr => 0x9B
  | .ripemd160 => 0xA6
  | .sha256 => 0xA8
  | .hash160 => 0xA9
  | .hash256 => 0xAA
  | .checkSig => 0xAC
  | .checkSigVerify => 0xAD
  | .checkMultiSig => 0xAE
  | .checkMultiSigVerify => 0xAF
  | .checkLockTimeVerify => 0xB1
  | .checkSequenceVerify => 0xB2

/-- The opcode with the given byte. -/
def ofCode? (b : UInt8) : Option Opcode := all.find? fun o => o.code = b

/-- An opcode is found by its byte. -/
@[simp] theorem ofCode?_code (o : Opcode) : ofCode? o.code = some o := by
  cases o <;> decide

/-- The name of an opcode. -/
def name : Opcode → String
  | .ifOp => "IF"
  | .notIf => "NOTIF"
  | .elseOp => "ELSE"
  | .endIf => "ENDIF"
  | .verify => "VERIFY"
  | .toAltStack => "TOALTSTACK"
  | .fromAltStack => "FROMALTSTACK"
  | .ifDup => "IFDUP"
  | .dup => "DUP"
  | .swap => "SWAP"
  | .size => "SIZE"
  | .equal => "EQUAL"
  | .equalVerify => "EQUALVERIFY"
  | .zeroNotEqual => "0NOTEQUAL"
  | .add => "ADD"
  | .boolAnd => "BOOLAND"
  | .boolOr => "BOOLOR"
  | .ripemd160 => "RIPEMD160"
  | .sha256 => "SHA256"
  | .hash160 => "HASH160"
  | .hash256 => "HASH256"
  | .checkSig => "CHECKSIG"
  | .checkSigVerify => "CHECKSIGVERIFY"
  | .checkMultiSig => "CHECKMULTISIG"
  | .checkMultiSigVerify => "CHECKMULTISIGVERIFY"
  | .checkLockTimeVerify => "CHECKLOCKTIMEVERIFY"
  | .checkSequenceVerify => "CHECKSEQUENCEVERIFY"

/-- The opcode that does the same and then VERIFY, if there is one. -/
def verifyForm? : Opcode → Option Opcode
  | .equal => some .equalVerify
  | .checkSig => some .checkSigVerify
  | .checkMultiSig => some .checkMultiSigVerify
  | _ => none

/-- The opcode as one or two simpler ones: a VERIFY form is an opcode and VERIFY. -/
def simpler : Opcode → List Opcode
  | .equalVerify => [.equal, .verify]
  | .checkSigVerify => [.checkSig, .verify]
  | .checkMultiSigVerify => [.checkMultiSig, .verify]
  | o => [o]

end Opcode

end LockScript
