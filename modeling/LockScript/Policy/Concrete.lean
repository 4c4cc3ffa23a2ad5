import LockScript.Policy.Lift

/-!
Concrete policies: policies as they are written, with the operators and branch weights that their
author chose.
-/

namespace LockScript

namespace ConcretePolicy

/-- What a concrete policy asks of its parts. -/
inductive Head where
  /-- A condition, whatever the parts. -/
  | condition (c : Condition)
  /-- All operands. -/
  | and
  /-- One of the branches. -/
  | or
  /-- At least `k` of the operands. -/
  | threshold (k : Int)

end ConcretePolicy

/-- A policy as it is written. Parts that the head has no use for are listed with it but not
required. -/
inductive ConcretePolicy where
  | node (head : ConcretePolicy.Head) (operands : List ConcretePolicy)
      (branches : List (UInt32 × ConcretePolicy))

namespace ConcretePolicy

/-- A branch of an `or` after its weight, which is left out if it is 1. -/
def weighted (weight : UInt32) (text : Bytes) : Bytes :=
  if weight = 1 then text else Decimal.ofNat weight.toNat ++ byte '@' :: text

mutual

/-- The text of a concrete policy. -/
def text : ConcretePolicy → Bytes
  | .node head operands branches => match head with
    | .condition c => c.text
    | .and => call (utf8 "and") (textsOf operands)
    | .or => call (utf8 "or") (branchTextsOf branches)
    | .threshold k =>
      utf8 "thresh(" ++ Decimal.ofInt k ++ byte ',' :: (joinWith [byte ','] (textsOf operands)
        ++ [byte ')'])

/-- The texts of several concrete policies. -/
def textsOf : List ConcretePolicy → List Bytes
  | [] => []
  | p :: rest => p.text :: textsOf rest

/-- The texts of several branches. -/
def branchTextsOf : List (UInt32 × ConcretePolicy) → List Bytes
  | [] => []
  | (weight, p) :: rest => weighted weight p.text :: branchTextsOf rest

end

/-- The key of a head. -/
def Head.keys : Head → List Key
  | .condition (.key key) => [key]
  | _ => []

mutual

/-- The keys of a concrete policy: its own, then those of its operands, then those of its branches. -/
def keys : ConcretePolicy → List Key
  | .node head operands branches => head.keys ++ keysOf operands ++ branchKeysOf branches

/-- The keys of several concrete policies. -/
def keysOf : List ConcretePolicy → List Key
  | [] => []
  | p :: rest => p.keys ++ keysOf rest

/-- The keys of several branches. -/
def branchKeysOf : List (UInt32 × ConcretePolicy) → List Key
  | [] => []
  | (_, p) :: rest => p.keys ++ branchKeysOf rest

end

/-- Why a concrete policy has no policy. -/
inductive LiftError where
  /-- A condition of a kind that is not known. -/
  | unknownKind (kind : UInt8)
  /-- The policy mixes the units of lock times. -/
  | mixedLocks (e : Policy.MixedLocks)

/-- The wording of the error. -/
def LiftError.message : LiftError → String
  | .unknownKind kind => s!"unknown concrete policy kind {kind.toNat}"
  | .mixedLocks e => e.message

mutual

/-- The policy that a concrete policy stands for, part by part and without branch weights. -/
def policy : ConcretePolicy → Except LiftError Policy
  | .node head operands branches => match head with
    | .condition (.other kind) => .error (.unknownKind kind)
    | .condition c => .ok (.leaf c [])
    | .and => do return .threshold operands.length (← policiesOf operands)
    | .threshold k => do return .threshold k (← policiesOf operands)
    | .or => do return .threshold 1 (← branchPoliciesOf branches)

/-- The policies of several concrete policies. -/
def policiesOf : List ConcretePolicy → Except LiftError (List Policy)
  | [] => .ok []
  | p :: rest => do
    let first ← p.policy
    let others ← policiesOf rest
    return first :: others

/-- The policies of several branches. -/
def branchPoliciesOf : List (UInt32 × ConcretePolicy) → Except LiftError (List Policy)
  | [] => .ok []
  | (_, p) :: rest => do
    let first ← p.policy
    let others ← branchPoliciesOf rest
    return first :: others

end

/-- The policy that a concrete policy stands for, in normal form. -/
def lift (p : ConcretePolicy) : Except LiftError Policy := do
  (← p.policy).settled.mapError .mixedLocks

end ConcretePolicy

end LockScript
