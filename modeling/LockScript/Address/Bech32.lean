import LockScript.Text.Bytes

/-!
Bech32: data in groups of five bits, written with thirty-two letters and digits after a prefix that
says what it is for, and followed by a checksum over both.
-/

namespace LockScript.Bech32

/-- The characters for the values from 0 to 31. -/
def alphabet : List Char := "qpzry9x8gf2tvdw0s3jn54khce6mua7l".toList

/-- The eight bits of a byte, most significant first. -/
def bits (b : UInt8) : List Bool :=
  [7, 6, 5, 4, 3, 2, 1, 0].map fun (i : UInt8) => b >>> i &&& 1 = 1

/-- The value of a group of bits, most significant first. -/
def value (group : List Bool) : UInt8 :=
  group.foldl (fun high bit => high * 2 + if bit then 1 else 0) 0

/-- The bits in groups of five, the last filled up with zeros. -/
def groups : List Bool → List UInt8
  | a :: b :: c :: d :: e :: rest => value [a, b, c, d, e] :: groups rest
  | [] => []
  | rest => [value (rest ++ List.replicate (5 - rest.length) false)]

/-- The five words of the checksum's generator. -/
def generator : List UInt32 := [0x3b6a57b2, 0x26508e6d, 0x1ea119fa, 0x3d4233dd, 0x2a1462b3]

/-- The checksum after one more value. -/
def step (sum : UInt32) (v : UInt8) : UInt32 :=
  let top := sum >>> 25
  let shifted := (sum &&& 0x1ffffff) <<< 5 ^^^ v.toUInt32
  ((generator.zip [0, 1, 2, 3, 4]).filter fun (_, i) => top >>> i &&& 1 = 1).foldl
    (fun s (g, _) => s ^^^ g) shifted

/-- The values of a prefix: its high bits, a zero, then its low bits. -/
def expanded (hrp : Bytes) : List UInt8 :=
  hrp.map (fun (b : UInt8) => b >>> 5) ++ 0 :: hrp.map (fun (b : UInt8) => b &&& 31)

/-- The six values that follow the data. -/
def checksum (hrp : Bytes) (data : List UInt8) : List UInt8 :=
  let sum : UInt32 := (expanded hrp ++ data ++ List.replicate 6 0).foldl step 1 ^^^ 1
  [25, 20, 15, 10, 5, 0].map fun (i : UInt32) => (sum >>> i &&& 31).toUInt8

/-- The character of a value. -/
def character (v : UInt8) : Char := alphabet.getD v.toNat 'q'

/-- The text of values after a prefix. -/
def encode (hrp : String) (data : List UInt8) : String :=
  hrp ++ "1" ++ String.ofList ((data ++ checksum (utf8 hrp) data).map character)

end LockScript.Bech32
