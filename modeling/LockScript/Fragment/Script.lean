import LockScript.Script.Instruction
import LockScript.Typing.Cost

/-!
The script of a fragment.

A fragment that is followed by VERIFY takes it into its last opcode where that has a VERIFY form. Only
parts whose last opcode is the last of the whole are told of a VERIFY after them.
-/

namespace LockScript

/-- The opcode itself, or its VERIFY form if it is followed by VERIFY. -/
def Opcode.orVerify (o : Opcode) (verify : Bool) : Opcode :=
  if verify then o.verifyForm?.getD o else o

/-- The opcode of a hash function. -/
def HashFunction.opcode : HashFunction → Opcode
  | .sha256 => .sha256
  | .hash256 => .hash256
  | .ripemd160 => .ripemd160
  | .hash160 => .hash160

/-- The script of a leaf. A hash lock first checks that the preimage has 32 bytes. -/
def Leaf.instructions (l : Leaf) (verify : Bool) : List Instruction :=
  match l with
  | .zero => [.bit false]
  | .one => [.bit true]
  | .pk key => [.key key]
  | .pkHash hash => [.op .dup, .op .hash160, .data hash.bytes, .op .equalVerify]
  | .older lock => [.number lock.toNat, .op .checkSequenceVerify]
  | .after lock => [.number lock.toNat, .op .checkLockTimeVerify]
  | .hashLock f image =>
    [.op .size, .number 32, .op .equalVerify, .op f.opcode, .data image.bytes,
      .op (Opcode.equal.orVerify verify)]
  | .multi k keys =>
    .number k.toNat :: keys.map .key
      ++ [.number keys.length, .op (Opcode.checkMultiSig.orVerify verify)]

namespace Fragment

mutual

/-- The script of a fragment; `verify` says whether a VERIFY follows that its last opcode may take
in. -/
def instructions : Fragment → (verify : Bool) → List Instruction
  | .leaf l, verify => l.instructions verify
  | .wrap .alt x, _ => .op .toAltStack :: x.instructions false ++ [.op .fromAltStack]
  | .wrap .swap x, verify => .op .swap :: x.instructions verify
  | .wrap .check x, verify => x.instructions false ++ [.op (Opcode.checkSig.orVerify verify)]
  | .wrap .dupIf x, _ => .op .dup :: .op .ifOp :: x.instructions false ++ [.op .endIf]
  | .wrap .verify x, _ =>
    x.instructions true ++ if (x.cost Int64).verifyForm then [] else [.op .verify]
  | .wrap .nonZero x, _ =>
    .op .size :: .op .zeroNotEqual :: .op .ifOp :: x.instructions false ++ [.op .endIf]
  | .wrap .zeroNotEqual x, _ => x.instructions false ++ [.op .zeroNotEqual]
  | .pair .andV x y, verify => x.instructions false ++ y.instructions verify
  | .pair .andB x y, _ => x.instructions false ++ y.instructions false ++ [.op .boolAnd]
  | .pair .orB x z, _ => x.instructions false ++ z.instructions false ++ [.op .boolOr]
  | .pair .orC x z, _ =>
    x.instructions false ++ .op .notIf :: z.instructions false ++ [.op .endIf]
  | .pair .orD x z, _ =>
    x.instructions false ++ .op .ifDup :: .op .notIf :: z.instructions false ++ [.op .endIf]
  | .pair .orI x z, _ =>
    .op .ifOp :: x.instructions false ++ .op .elseOp :: z.instructions false ++ [.op .endIf]
  | .andor x y z, _ =>
    x.instructions false ++ .op .notIf :: z.instructions false
      ++ .op .elseOp :: y.instructions false ++ [.op .endIf]
  | .thresh k subs, verify =>
    sumInstructions true subs ++ [.number k.toNat, .op (Opcode.equal.orVerify verify)]

/-- The scripts of the parts of a threshold, each but the very first followed by ADD. -/
def sumInstructions : (first : Bool) → List Fragment → List Instruction
  | _, [] => []
  | first, x :: rest =>
    x.instructions false ++ (if first then [] else [.op .add]) ++ sumInstructions false rest

end

/-- The script of a fragment in words. -/
def assembly (f : Fragment) : String :=
  " ".intercalate ((f.instructions false).map Instruction.text)

/-- The bytes of the script of a fragment. -/
def script (f : Fragment) : Except Script.Error Bytes := Script.assemble (f.instructions false)

end Fragment

end LockScript
