import LockScript.Text.Quoted

/-!
Integers of 64 bits in decimal, with the reason why a text is none.
-/

namespace LockScript.Integer

/-- Why a text is not a number. -/
inductive Fault where
  /-- Something that is not a digit, or no digit at all. -/
  | syntaxFault
  /-- The number is too large or too small. -/
  | rangeFault
  deriving DecidableEq, Repr

/-- The wording of a fault. -/
def Fault.message : Fault → String
  | .syntaxFault => "invalid syntax"
  | .rangeFault => "value out of range"

/-- The number whose digits are those of `high` and then these, no larger than `most`. The first
thing wrong, from the left, is the fault. -/
def natFrom (most high : Nat) : Bytes → Except Fault Nat
  | [] => .ok high
  | b :: rest =>
    if b < 0x30 ∨ b > 0x39 then .error .syntaxFault
    else
      let n := high * 10 + (b.toNat - 0x30)
      if n > most then .error .rangeFault else natFrom most n rest

/-- A number without sign below 2 ^ 64. -/
def readNat (text : Bytes) : Except Fault Nat :=
  if text = [] then .error .syntaxFault else natFrom 0xFFFFFFFFFFFFFFFF 0 text

/-- A number from -2 ^ 63 up to 2 ^ 63 - 1, with or without a sign. -/
def readInt (text : Bytes) : Except Fault Int :=
  match text with
  | [] => .error .syntaxFault
  | b :: rest =>
    let negative := b = byte '-'
    let digits := if negative ∨ b = byte '+' then rest else text
    match readNat digits with
    | .error fault => .error fault
    | .ok n =>
      if negative then if n > 0x8000000000000000 then .error .rangeFault else .ok (-n)
      else if n ≥ 0x8000000000000000 then .error .rangeFault else .ok n

end LockScript.Integer
