import LockScript.Text.Bytes

/-!
Script numbers: least significant byte first, with the top bit of the last byte for the sign, in as
few bytes as possible.
-/

namespace LockScript.ScriptNumber

/-- The bytes of a number, least significant first and none for 0. The first argument bounds their
count. -/
def magnitude : Nat → Nat → Bytes
  | 0, _ => []
  | bound + 1, n => if n = 0 then [] else UInt8.ofNat n :: magnitude bound (n / 256)

/-- The script number of a natural number: one more byte is put at the end where the top bit would
otherwise be taken for the sign. -/
def encode (n : Nat) : Bytes :=
  let data := magnitude n n
  match data.getLast? with
  | none => []
  | some top => if top < 0x80 then data else data ++ [0]

/-- The number that bytes stand for, least significant first. -/
def ofLittleEndian : Bytes → Nat
  | [] => 0
  | b :: rest => b.toNat + 256 * ofLittleEndian rest

/-- The number that a script number stands for. -/
def decode (data : Bytes) : Int :=
  match data.getLast? with
  | none => 0
  | some top =>
    if top < 0x80 then ofLittleEndian data
    else -(ofLittleEndian data - (0x80 <<< (8 * (data.length - 1)) : Nat) : Int)

/-- Whether no shorter script number stands for the same: the last byte holds more than the sign, or
is needed to keep the sign apart from the byte before it. -/
def isMinimal (data : Bytes) : Bool :=
  match data.reverse with
  | [] => true
  | [top] => top &&& 0x7F ≠ 0
  | top :: second :: _ => top &&& 0x7F ≠ 0 || second &&& 0x80 ≠ 0

end LockScript.ScriptNumber
