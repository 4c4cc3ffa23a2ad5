import LockScript.Fragment.Text
import LockScript.Typing.Facts
import LockScript.Script.Token

/-!
Why a text or a script is not a fragment.

An error is a cause and, if known, the offset it was found at. The wording of all causes is here.
-/

namespace LockScript

/-- What a text should have gone on with. -/
inductive TextWanted where
  | fragmentName
  | separator
  | leafArgument
  deriving DecidableEq, Repr

/-- The wording of what was wanted. -/
def TextWanted.text : TextWanted → String
  | .fragmentName => "a fragment name"
  | .separator => "',' or ')'"
  | .leafArgument => "a leaf argument"

/-- What is wrong with the text of a fragment. -/
inductive TextCause where
  /-- Something else was wanted than this byte or the end of the text. -/
  | unexpected (found : Option UInt8) (wanted : TextWanted)
  /-- A byte after the end of the fragment. -/
  | trailing (b : UInt8)
  /-- The text ends inside the arguments of `name`. -/
  | unterminated (name : Bytes)
  /-- A second colon, after this much of the fragment. -/
  | secondColon (start : Bytes)
  /-- A colon without a wrapper before it. -/
  | noWrappers
  | unknownFragment (name : Bytes)
  | unknownWrapper (letter : UInt8)
  /-- More arguments than the name takes. -/
  | tooManyArguments (name : Bytes) (taken : Nat)
  /-- A number of arguments that the name does not take. -/
  | wrongArguments (name : Bytes) (given : Nat)
  /-- `and_v(X,1)` instead of `t:X`. -/
  | spelledOutTrue
  | tooManyKeys (given : Nat)
  | badKey (text : Bytes) (reason : Key.Error)
  | badLockTime (text : Bytes)
  | badThreshold (text : Bytes)
  | badHash (width : Nat) (text : Bytes)
  /-- Arguments to what should be a plain word. -/
  | argumentsToLeaf (name : Bytes)

/-- The most keys a `thresh_m` may have. -/
def maxMultiKeys : Nat := 20

/-- The wording of a cause. -/
def TextCause.message : TextCause → String
  | .unexpected none wanted => s!"unexpected end of input, expected {wanted.text}"
  | .unexpected (some b) wanted => s!"unexpected {quotedByte b}, expected {wanted.text}"
  | .trailing b => s!"unexpected {quotedByte b} after end of expression"
  | .unterminated name => s!"expression {quoted name} does not terminate with )"
  | .secondColon start => s!"fragment {quoted start} has more than one wrapper separator"
  | .noWrappers => "empty wrapper prefix"
  | .unknownFragment name => s!"unknown fragment {quoted name}"
  | .unknownWrapper letter => s!"unknown wrapper {quotedByte letter}"
  | .tooManyArguments name taken => s!"{shown name} takes {taken} arguments"
  | .wrongArguments name given => s!"{shown name} does not take {given} arguments"
  | .spelledOutTrue => "and_v(X,1) must be written as t:X"
  | .tooManyKeys given => s!"thresh_m has {given} keys, at most {maxMultiKeys} are allowed"
  | .badKey text reason => s!"invalid key {quoted text}: {reason.message}"
  | .badLockTime text => s!"invalid lock time {quoted text}"
  | .badThreshold text => s!"invalid threshold {quoted text}"
  | .badHash width text => s!"invalid {width} byte hash {quoted text}"
  | .argumentsToLeaf name => s!"unexpected arguments to leaf argument {quoted name}"

/-- What a script should have gone on with, read from its end. -/
inductive ScriptWanted where
  | fragment
  /-- A fragment that should have been found already. -/
  | part
  | op (o : Opcode)
  | number (n : UInt32)
  | hashOrThreshold
  | hashOpcode
  | hashOpcode32
  | hashOpcode20
  | lockTime
  | keyCount
  | key
  | threshold
  | thresholdChild
  | conditional
  | choice
  | dupOrZeroNotEqual
  deriving DecidableEq, Repr

/-- The wording of what was wanted. -/
def ScriptWanted.text : ScriptWanted → String
  | .fragment => "a fragment"
  | .part => "a fragment"
  | .op o => o.name
  | .number n => (Symbol.number n).text
  | .hashOrThreshold => "a hash or threshold"
  | .hashOpcode => "a hash opcode"
  | .hashOpcode32 => "SHA256 or HASH256"
  | .hashOpcode20 => "RIPEMD160 or HASH160"
  | .lockTime => "a lock time"
  | .keyCount => "the number of keys"
  | .key => "a key"
  | .threshold => "the threshold"
  | .thresholdChild => "a threshold child"
  | .conditional => "ELSE, IF or NOTIF"
  | .choice => "IF or NOTIF"
  | .dupOrZeroNotEqual => "DUP or 0NOTEQUAL"

/-- What is wrong with the script of a fragment. -/
inductive ScriptCause where
  /-- The script cannot be taken apart into tokens. -/
  | token (c : Token.Cause)
  /-- Something else was wanted than this symbol or the start of the script. -/
  | unexpected (found : Option Symbol) (wanted : ScriptWanted)
  /-- A symbol before the fragment that the script ends in. -/
  | trailing (found : Symbol)
  | tooManyKeys (given : Nat)
  | badKey (found : Symbol) (reason : Key.Error)
  /-- The script leaves a number of fragments other than one. -/
  | fragmentCount (n : Nat)

/-- The wording of a cause. -/
def ScriptCause.message : ScriptCause → String
  | .token c => c.message
  | .unexpected none wanted => s!"unexpected start of script, expected {wanted.text}"
  | .unexpected (some s) wanted => s!"unexpected {s.text}, expected {wanted.text}"
  | .trailing s => s!"unexpected {s.text} before the end of the miniscript"
  | .tooManyKeys given =>
    s!"CHECKMULTISIG with {given} keys, at most {maxMultiKeys} are allowed"
  | .badKey s reason => s!"invalid key {s.text}: {reason.message}"
  | .fragmentCount n => s!"script decodes to {n} fragments"

/-- Why something is not a fragment. -/
inductive Cause where
  /-- The parts of `f` do not fit together. -/
  | mistyped (f : Fragment) (m : Mistype)
  /-- The facts of a fragment break an invariant. -/
  | broken (v : Violation)
  /-- A fragment of a depth beyond the limit. -/
  | tooDeep (depth : Nat) (limit : Int)
  /-- Nesting that reaches the limit before a fragment is read. -/
  | nesting (limit : Int)
  | text (c : TextCause)
  | script (c : ScriptCause)

namespace Cause

/-- The wording of a cause. -/
def message : Cause → String
  | .mistyped f m => s!"fragment {quoted f.text} {m.message}"
  | .broken v => v.message
  | .tooDeep depth limit => s!"fragment nesting depth {depth} exceeds the maximum of {limit}"
  | .nesting limit => s!"fragment nesting exceeds the maximum of {limit}"
  | .text c => c.message
  | .script c => c.message

/-- The fragment that a cause is about. -/
def fragment? : Cause → Option Fragment
  | .mistyped f _ => some f
  | _ => none

end Cause

/-- Why something is not a fragment, and at which offset if that is known. -/
structure Error where
  cause : Cause
  offset : Option Nat

namespace Error

/-- The wording of an error. -/
def message (e : Error) : String := e.cause.message

/-- The error with an offset, if it has none yet. -/
def locate (offset : Nat) (e : Error) : Error := { e with offset := e.offset.or (some offset) }

end Error

end LockScript
