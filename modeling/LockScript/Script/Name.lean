import LockScript.Text.Hex

/-!
The names of all opcodes, used and unused, as they appear in disassembled scripts.
-/

namespace LockScript.Script

/-- The names of the opcodes from 0x61 on that have one of their own. -/
def operationNames : List String := [
  "OP_NOP", "OP_VER", "OP_IF", "OP_NOTIF", "OP_VERIF", "OP_VERNOTIF", "OP_ELSE", "OP_ENDIF",
  "OP_VERIFY", "OP_RETURN", "OP_TOALTSTACK", "OP_FROMALTSTACK", "OP_2DROP", "OP_2DUP", "OP_3DUP",
  "OP_2OVER", "OP_2ROT", "OP_2SWAP", "OP_IFDUP", "OP_DEPTH", "OP_DROP", "OP_DUP", "OP_NIP",
  "OP_OVER", "OP_PICK", "OP_ROLL", "OP_ROT", "OP_SWAP", "OP_TUCK", "OP_CAT", "OP_SUBSTR",
  "OP_LEFT", "OP_RIGHT", "OP_SIZE", "OP_INVERT", "OP_AND", "OP_OR", "OP_XOR", "OP_EQUAL",
  "OP_EQUALVERIFY", "OP_RESERVED1", "OP_RESERVED2", "OP_1ADD", "OP_1SUB", "OP_2MUL", "OP_2DIV",
  "OP_NEGATE", "OP_ABS", "OP_NOT", "OP_0NOTEQUAL", "OP_ADD", "OP_SUB", "OP_MUL", "OP_DIV",
  "OP_MOD", "OP_LSHIFT", "OP_RSHIFT", "OP_BOOLAND", "OP_BOOLOR", "OP_NUMEQUAL",
  "OP_NUMEQUALVERIFY", "OP_NUMNOTEQUAL", "OP_LESSTHAN", "OP_GREATERTHAN", "OP_LESSTHANOREQUAL",
  "OP_GREATERTHANOREQUAL", "OP_MIN", "OP_MAX", "OP_WITHIN", "OP_RIPEMD160", "OP_SHA1",
  "OP_SHA256", "OP_HASH160", "OP_HASH256", "OP_CODESEPARATOR", "OP_CHECKSIG",
  "OP_CHECKSIGVERIFY", "OP_CHECKMULTISIG", "OP_CHECKMULTISIGVERIFY", "OP_NOP1",
  "OP_CHECKLOCKTIMEVERIFY", "OP_CHECKSEQUENCEVERIFY", "OP_NOP4", "OP_NOP5", "OP_NOP6", "OP_NOP7",
  "OP_NOP8", "OP_NOP9", "OP_NOP10", "OP_CHECKSIGADD"]

/-- The name of an opcode. -/
def opcodeName (b : UInt8) : String :=
  let n := b.toNat
  if n = 0 then "OP_0"
  else if n ≤ 0x4B then s!"OP_DATA_{n}"
  else if n = 0x4C then "OP_PUSHDATA1"
  else if n = 0x4D then "OP_PUSHDATA2"
  else if n = 0x4E then "OP_PUSHDATA4"
  else if n = 0x4F then "OP_1NEGATE"
  else if n = 0x50 then "OP_RESERVED"
  else if n ≤ 0x60 then s!"OP_{n - 0x50}"
  else if n = 0xFA then "OP_SMALLINTEGER"
  else if n = 0xFB then "OP_PUBKEYS"
  else if n = 0xFD then "OP_PUBKEYHASH"
  else if n = 0xFE then "OP_PUBKEY"
  else if n = 0xFF then "OP_INVALIDOPCODE"
  else operationNames.getD (n - 0x61) s!"OP_UNKNOWN{n}"

/-- An opcode with the data it pushes as one word of a disassembled script: data in hexadecimal, the
small numbers by their value, and everything else by name. -/
def disassembled (opcode : UInt8) (data : Bytes) : String :=
  let n := opcode.toNat
  if n = 0 then "0"
  else if n = 0x4F then "-1"
  else if 0x51 ≤ n ∧ n ≤ 0x60 then s!"{n - 0x50}"
  else if n ≤ 0x4E then Hex.shown data
  else opcodeName opcode

end LockScript.Script
