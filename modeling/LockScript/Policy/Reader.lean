import LockScript.Policy.Concrete
import LockScript.Expression.Reader

/-!
Reading concrete policies from expressions.
-/

namespace LockScript.ConcretePolicy

/-- What is wrong with an expression that is not a concrete policy. -/
inductive Cause where
  /-- A branch weight on what is not a branch of an `or`. -/
  | strayWeight (name : Bytes)
  /-- A branch weight that is not a positive number. -/
  | badWeight (text : Bytes)
  | unknownName (name : Bytes)
  /-- A number of arguments that the name does not take. -/
  | wrongArguments (name : Bytes) (taken given : Nat)
  /-- A threshold without anything to choose from. -/
  | noBranches
  /-- Arguments to what should be a plain word. -/
  | argumentsToWord (word : Bytes)
  | badKey (text : Bytes) (reason : Key.Error)
  | badLockTime (text : Bytes)
  /-- A lock time of zero. -/
  | zeroLockTime (name : Bytes)
  | badHash (width : Nat) (text : Bytes)
  | badThreshold (text : Bytes)
  | zeroThreshold
  | overThreshold (k n : Nat)

/-- The wording of a cause. -/
def Cause.message : Cause → String
  | .strayWeight name => s!"branch weight in {quoted name} outside of an or"
  | .badWeight text => s!"invalid branch weight {quoted text}"
  | .unknownName name => s!"unknown policy fragment {quoted name}"
  | .wrongArguments name taken given => s!"{shown name} takes {taken} arguments, got {given}"
  | .noBranches => "thresh needs a threshold and at least one policy"
  | .argumentsToWord word => s!"unexpected arguments to {quoted word}"
  | .badKey text reason => s!"invalid key {quoted text}: {reason.message}"
  | .badLockTime text => s!"invalid lock time {quoted text}"
  | .zeroLockTime name => s!"{shown name}(0) can never be satisfied"
  | .badHash width text => s!"invalid {width} byte hash {quoted text}"
  | .badThreshold text => s!"invalid threshold {quoted text}"
  | .zeroThreshold => "thresh requires at least one branch"
  | .overThreshold k n => s!"thresh requires {k} of only {n} branches"

/-- Why and where a text is not a concrete policy. -/
inductive Error where
  /-- The text is not an expression. -/
  | expression (e : Expression.Error)
  /-- The expression is not a concrete policy. -/
  | policy (cause : Cause) (offset : Nat)

/-- The wording of an error. -/
def Error.message : Error → String
  | .expression e => e.cause.message
  | .policy cause _ => cause.message

/-- The plain word that an argument is. -/
def word : Expression → Except Error (Bytes × Nat)
  | .node name offset args =>
    if args = [] then .ok (name, offset) else .error (.policy (.argumentsToWord name) offset)

/-- The only argument of `name`, a plain word. -/
def onlyWord (name : Bytes) (offset : Nat) : List Expression → Except Error (Bytes × Nat)
  | [arg] => word arg
  | args => .error (.policy (.wrongArguments name 1 args.length) offset)

/-- A lock time other than zero. -/
def lockTime (name : Bytes) (offset : Nat) (args : List Expression) : Except Error UInt32 := do
  let (text, start) ← onlyWord name offset args
  match Decimal.below? 32 text with
  | none => .error (.policy (.badLockTime text) start)
  | some 0 => .error (.policy (.zeroLockTime name) start)
  | some n => .ok (UInt32.ofNat n)

/-- The image of a hash lock. -/
def image (f : HashFunction) (name : Bytes) (offset : Nat) (args : List Expression) :
    Except Error Condition := do
  let (text, start) ← onlyWord name offset args
  match Hex.decode text with
  | .ok data =>
    if data.length = f.width then .ok (.hash f data)
    else .error (.policy (.badHash f.width text) start)
  | .error _ => .error (.policy (.badHash f.width text) start)

/-- How many of the other arguments a threshold needs. -/
def needed (offset : Nat) : List Expression → Except Error Int
  | first :: rest => do
    let n := rest.length
    if n = 0 then .error (.policy .noBranches offset)
    let (text, start) ← word first
    match Decimal.below? 31 text with
    | none => .error (.policy (.badThreshold text) start)
    | some k =>
      if k = 0 then .error (.policy .zeroThreshold start)
      else if k > n then .error (.policy (.overThreshold k n) start)
      else .ok k
  | [] => .error (.policy .noBranches offset)

/-- What is written when `name` takes `taken` arguments. -/
def taking (taken : Nat) (head : Head) (name : Bytes) (offset : Nat) (args : List Expression) :
    Except Error Head :=
  if args.length = taken then .ok head
  else .error (.policy (.wrongArguments name taken args.length) offset)

/-- What a name with these arguments asks for. The arguments are only looked at where they are plain
words. -/
def headOf (readKey : Key.Reader) (name : Bytes) (offset : Nat) (args : List Expression) :
    Except Error Head :=
  if name.contains (byte '@') then .error (.policy (.strayWeight name) offset)
  else if name = utf8 "UNSATISFIABLE" then taking 0 (.condition .unsatisfiable) name offset args
  else if name = utf8 "TRIVIAL" then taking 0 (.condition .trivial) name offset args
  else if name = utf8 "pk" then do
    let (text, start) ← onlyWord name offset args
    match readKey text with
    | .ok key => .ok (.condition (.key key))
    | .error reason => .error (.policy (.badKey text reason) start)
  else if name = utf8 "after" then do
    return .condition (.after (← lockTime name offset args))
  else if name = utf8 "older" then do
    return .condition (.older (← lockTime name offset args))
  else if name = utf8 "sha256" then do return .condition (← image .sha256 name offset args)
  else if name = utf8 "hash256" then do return .condition (← image .hash256 name offset args)
  else if name = utf8 "ripemd160" then do return .condition (← image .ripemd160 name offset args)
  else if name = utf8 "hash160" then do return .condition (← image .hash160 name offset args)
  else if name = utf8 "and" then taking 2 .and name offset args
  else if name = utf8 "or" then taking 2 .or name offset args
  else if name = utf8 "thresh" then do return .threshold (← needed offset args)
  else .error (.policy (.unknownName name) offset)

/-- A name in three parts: the weight before the first `@`, or 1 if there is none, the name itself,
and where that begins. -/
def takeWeight (name : Bytes) (offset : Nat) : Except Error (UInt32 × Bytes × Nat) :=
  match splitBefore (· = byte '@') name with
  | (_, []) => .ok (1, name, offset)
  | (digits, _ :: rest) => match Decimal.below? 32 digits with
    | none => .error (.policy (.badWeight digits) offset)
    | some 0 => .error (.policy (.badWeight digits) offset)
    | some n => .ok (UInt32.ofNat n, rest, offset + digits.length + 1)

mutual

/-- The concrete policy that an expression stands for, with its weight; only a branch may be given
one. -/
def ofExpression (readKey : Key.Reader) :
    (isBranch : Bool) → Expression → Except Error (UInt32 × ConcretePolicy)
  | isBranch, .node written start args => do
    let (weight, name, offset) ←
      if isBranch then takeWeight written start else .ok (1, written, start)
    match ← headOf readKey name offset args with
    | .condition c => return (weight, .node (.condition c) [] [])
    | .and => return (weight, .node .and ((← ofExpressions readKey false args).map (·.2)) [])
    | .or => return (weight, .node .or [] (← ofExpressions readKey true args))
    | .threshold k => match args with
      | [] => return (weight, .node (.threshold k) [] [])
      | _ :: rest =>
        return (weight, .node (.threshold k) ((← ofExpressions readKey false rest).map (·.2)) [])

/-- The concrete policies that several expressions stand for, with their weights. -/
def ofExpressions (readKey : Key.Reader) :
    (isBranch : Bool) → List Expression → Except Error (List (UInt32 × ConcretePolicy))
  | _, [] => .ok []
  | isBranch, e :: rest => do
    let first ← ofExpression readKey isBranch e
    let others ← ofExpressions readKey isBranch rest
    return first :: others

end

/-- The concrete policy with this text, nested no deeper than `limit`. -/
def read (readKey : Key.Reader) (limit : Int) (text : Bytes) : Except Error ConcretePolicy := do
  let e ← (Expression.read limit text).mapError .expression
  return (← ofExpression readKey false e).2

end LockScript.ConcretePolicy
