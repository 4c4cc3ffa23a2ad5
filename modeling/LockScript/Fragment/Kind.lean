import LockScript.Fragment.Error

/-!
The kinds of errors.

A cause says all that is known about a mistake; its kind only says what sort of mistake it is. One
kind may have several causes: nesting beyond the limit is of one kind whether it is met on the way
down, before a fragment is read, or found in a fragment that has been put together.
-/

namespace LockScript

/-- The sort of a mistake. -/
inductive ErrorKind where
  -- Parts that do not fit together.
  | zeroTime
  | zeroThreshold
  | overThreshold
  | wrappedBase
  | pairedBases
  | branchedBases
  | swapNotOne
  | dupIfNotZero
  | nonZeroMayBeZero
  | leftNotDissatisfiable
  | rightNotDissatisfiable
  | leftNotUnit
  | subBase
  | subNotUnit
  | subNotDissatisfiable
  -- Malformed text.
  | unexpected
  | unterminated
  | unknownFragment
  | unknownWrapper
  | multipleColons
  | spelledOutTrue
  | wrongArity
  | invalidHash
  | invalidNumber
  -- Malformed text or script.
  | invalidKey
  | tooManyKeys
  | tooDeep
  -- Malformed scripts.
  | invalidOpcode
  | invalidPush
  | separateVerify
  | unexpectedToken
  | trailingTokens
  deriving DecidableEq, Repr

/-- The kind of a mistype. -/
def Mistype.kind : Mistype → ErrorKind
  | .zeroTime => .zeroTime
  | .zeroThreshold => .zeroThreshold
  | .overThreshold _ _ => .overThreshold
  | .wrapped _ => .wrappedBase
  | .paired _ _ => .pairedBases
  | .branched _ _ _ => .branchedBases
  | .swapNotOne => .swapNotOne
  | .dupIfNotZero => .dupIfNotZero
  | .nonZeroMayBeZero => .nonZeroMayBeZero
  | .leftNotDissatisfiable => .leftNotDissatisfiable
  | .rightNotDissatisfiable => .rightNotDissatisfiable
  | .leftNotUnit => .leftNotUnit
  | .subBase _ _ _ => .subBase
  | .subNotUnit _ => .subNotUnit
  | .subNotDissatisfiable _ => .subNotDissatisfiable

/-- The kind of a mistake in a text. A text that ends too early is unterminated. -/
def TextCause.kind : TextCause → ErrorKind
  | .unexpected none _ => .unterminated
  | .unexpected (some _) _ => .unexpected
  | .trailing _ => .unexpected
  | .unterminated _ => .unterminated
  | .secondColon _ => .multipleColons
  | .noWrappers => .unexpected
  | .unknownFragment _ => .unknownFragment
  | .unknownWrapper _ => .unknownWrapper
  | .tooManyArguments _ _ => .wrongArity
  | .wrongArguments _ _ => .wrongArity
  | .spelledOutTrue => .spelledOutTrue
  | .tooManyKeys _ => .tooManyKeys
  | .badKey _ _ => .invalidKey
  | .badLockTime _ => .invalidNumber
  | .badThreshold _ => .invalidNumber
  | .badHash _ _ => .invalidHash
  | .argumentsToLeaf _ => .unexpected

/-- The kind of what keeps a script from being taken apart. -/
def Token.Cause.kind : Token.Cause → ErrorKind
  | .separateVerify _ => .separateVerify
  | .foreignOpcode _ => .invalidOpcode
  | _ => .invalidPush

/-- The kind of a mistake in a script. -/
def ScriptCause.kind : ScriptCause → ErrorKind
  | .token c => c.kind
  | .unexpected _ _ => .unexpectedToken
  | .trailing _ => .trailingTokens
  | .tooManyKeys _ => .tooManyKeys
  | .badKey _ _ => .invalidKey
  | .fragmentCount _ => .unexpectedToken

/-- The kind of a cause. An invariant that is broken is no mistake of whoever wrote the input, and of
no kind. -/
def Cause.kind? : Cause → Option ErrorKind
  | .mistyped _ m => some m.kind
  | .broken _ => none
  | .tooDeep _ _ => some .tooDeep
  | .nesting _ => some .tooDeep
  | .text c => some c.kind
  | .script c => some c.kind

end LockScript
