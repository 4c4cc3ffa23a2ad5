import LockScript.Fragment.Basic

/-!
Correctness types: whether a composition of fragments is a script at all.

The type of a fragment says where it leaves its result, what it takes from the stack, whether it can
be dissatisfied, and whether it leaves exactly 1 when satisfied.
-/

namespace LockScript

/-- Where a fragment leaves its result. -/
inductive Base where
  /-- Pushes a nonzero value when satisfied, and exactly 0 when dissatisfied. -/
  | B
  /-- Pushes nothing when satisfied, and cannot be dissatisfied without aborting. -/
  | V
  /-- Pushes a public key, which `c:` turns into a B. -/
  | K
  /-- Works like B one element below the top of the stack. -/
  | W
  /-- A code of a stored type that stands for none of the four. -/
  | other (code : UInt8)
  deriving DecidableEq, Repr

/-- The letter of a base. -/
def Base.letter : Base → String
  | .B => "B"
  | .V => "V"
  | .K => "K"
  | .W => "W"
  | .other _ => "?"

/-- What a fragment takes from the stack. -/
inductive Input where
  /-- Nothing. -/
  | zero
  /-- Exactly one element. -/
  | one
  /-- Any number of elements. -/
  | any
  /-- Exactly one element, which is nonzero when satisfying. -/
  | oneNonZero
  /-- Any number of elements, the top one being nonzero when satisfying. -/
  | anyNonZero
  /-- A code of a stored type that stands for none of the five. -/
  | other (code : UInt8)
  deriving DecidableEq, Repr

namespace Input

/-- The name of an input. -/
def name : Input → String
  | .zero => "Zero"
  | .one => "One"
  | .any => "Any"
  | .oneNonZero => "OneNonZero"
  | .anyNonZero => "AnyNonZero"
  | .other _ => "?"

/-- Whether a fragment with the first input may stand where the second is expected. -/
def isSubtype (i other : Input) : Bool :=
  i = other || other = .any || (i = .oneNonZero && (other = .one || other = .anyNonZero))

/-- The input of two fragments run one after the other. -/
def andThen : Input → Input → Input
  | .zero, .zero => .zero
  | .zero, .one => .one
  | .one, .zero => .one
  | .zero, .oneNonZero => .oneNonZero
  | .oneNonZero, .zero => .oneNonZero
  | .oneNonZero, _ => .anyNonZero
  | .anyNonZero, _ => .anyNonZero
  | .zero, .anyNonZero => .anyNonZero
  | _, _ => .any

/-- The input of two fragments that are both run, in either order of the stack. -/
def both (l r : Input) : Input :=
  if l = .zero ∧ r = .zero then .zero
  else if (l = .zero ∧ r.isSubtype .one) ∨ (l.isSubtype .one ∧ r = .zero) then .one
  else .any

/-- The input of two fragments of which the second runs only after the first was dissatisfied. -/
def orElse (l r : Input) : Input :=
  if l = .zero ∧ r = .zero then .zero
  else if l.isSubtype .one ∧ r = .zero then .one
  else .any

/-- The input of running `x` and then one of `y` and `z`. -/
def branch (x y z : Input) : Input :=
  if x = .zero ∧ y = .zero ∧ z = .zero then .zero
  else if (x = .zero ∧ y.isSubtype .one ∧ z.isSubtype .one)
      ∨ (x.isSubtype .one ∧ y = .zero ∧ z = .zero) then .one
  else .any

/-- The number of elements taken, with 2 for any number. -/
def count : Input → Nat
  | .zero => 0
  | .one => 1
  | .oneNonZero => 1
  | .any => 2
  | .anyNonZero => 2
  | .other _ => 0

/-- The input of several fragments that are all run. -/
def all (inputs : List Input) : Input :=
  match (inputs.map count).foldr (· + ·) 0 with
  | 0 => .zero
  | 1 => .one
  | _ => .any

end Input

/-- The correctness type of a fragment. -/
structure Correctness where
  base : Base
  input : Input
  /-- The fragment can be dissatisfied. -/
  dissatisfiable : Bool
  /-- The fragment leaves exactly 1 when satisfied. -/
  unit : Bool
  deriving DecidableEq, Repr

/-- Why fragments cannot be put together. -/
inductive Mistype where
  /-- A lock time of 0. -/
  | zeroTime
  /-- A threshold of 0. -/
  | zeroThreshold
  /-- A threshold of `k` out of `n` that is negative or more than all. -/
  | overThreshold (k n : Int)
  /-- A wrapper around a fragment of the wrong base. -/
  | wrapped (base : Base)
  /-- Two fragments of the wrong bases. -/
  | paired (left right : Base)
  /-- Three fragments of the wrong bases. -/
  | branched (x y z : Base)
  /-- `s:` around a fragment that does not take exactly one element. -/
  | swapNotOne
  /-- `d:` around a fragment that takes elements from the stack. -/
  | dupIfNotZero
  /-- `j:` around a fragment that an empty element may satisfy. -/
  | nonZeroMayBeZero
  /-- A left part that cannot be dissatisfied. -/
  | leftNotDissatisfiable
  /-- A right part that cannot be dissatisfied. -/
  | rightNotDissatisfiable
  /-- A left part that may leave something other than 1. -/
  | leftNotUnit
  /-- A part of a threshold with the wrong base. -/
  | subBase (index : Nat) (found expected : Base)
  /-- A part of a threshold that may leave something other than 1. -/
  | subNotUnit (index : Nat)
  /-- A part of a threshold that cannot be dissatisfied. -/
  | subNotDissatisfiable (index : Nat)
  deriving DecidableEq, Repr

/-- The wording of a mistype, to stand after the name of the fragment. -/
def Mistype.message : Mistype → String
  | .zeroTime => "represents a 0-valued timelock (use 1 instead)"
  | .zeroThreshold => "has a threshold value of 0"
  | .overThreshold k n => s!"is a {k}-of-{n} threshold, which does not make sense"
  | .wrapped base => s!"cannot wrap a fragment of type {base.letter}"
  | .paired l r => s!"cannot accept children of types {l.letter} and {r.letter}"
  | .branched x y z =>
    s!"cannot accept children of types {x.letter}, {y.letter} and {z.letter}"
  | .swapNotOne =>
    "attempts to use SWAP to prefix something which does not take exactly one input"
  | .dupIfNotZero => "needs its child to consume zero elements from the stack"
  | .nonZeroMayBeZero =>
    "uses the j: wrapper around a fragment which might be satisfied by an input of size zero"
  | .leftNotDissatisfiable => "requires its left child be dissatisfiable"
  | .rightNotDissatisfiable => "requires its right child be dissatisfiable"
  | .leftNotUnit =>
    "requires its left child be a unit (outputs exactly 1 given a satisfying input)"
  | .subBase i found expected =>
    s!"sub-fragment {i} has type {found.letter} rather than {expected.letter}"
  | .subNotUnit i =>
    s!"sub-fragment {i} is not a unit (does not put exactly 1 on the stack given a "
      ++ "satisfying input)"
  | .subNotDissatisfiable i =>
    s!"sub-fragment {i} can not be dissatisfied and cannot be used in a threshold"

namespace Correctness

/-- Whether a fragment of the first type may stand where the second is expected. -/
def isSubtype (c other : Correctness) : Bool :=
  c.base = other.base && c.input.isSubtype other.input
    && (c.dissatisfiable || !other.dissatisfiable) && (c.unit || !other.unit)

/-! ## Leaves -/

/-- The type of `0`. -/
def zero : Correctness := ⟨.B, .zero, true, true⟩

/-- The type of `1`. -/
def one : Correctness := ⟨.B, .zero, false, true⟩

/-- The type of `pk`. -/
def pk : Correctness := ⟨.K, .oneNonZero, true, true⟩

/-- The type of `pk_h`. -/
def pkHash : Correctness := ⟨.K, .anyNonZero, true, true⟩

/-- The type of `thresh_m`. -/
def multi : Correctness := ⟨.B, .anyNonZero, true, true⟩

/-- The type of a hash lock. -/
def hashLock : Correctness := ⟨.B, .oneNonZero, true, true⟩

/-- The type of a lock time. -/
def timeLock : Correctness := ⟨.B, .zero, false, false⟩

/-- The type of a leaf. -/
def ofLeaf : Leaf → Correctness
  | .zero => zero
  | .one => one
  | .pk _ => pk
  | .pkHash _ => pkHash
  | .after _ => timeLock
  | .older _ => timeLock
  | .hashLock _ _ => hashLock
  | .multi _ _ => multi

/-! ## Compositions -/

/-- The type of a wrapper around a fragment. The result of `d:` is not a unit, since nothing here
assumes that the argument of IF is minimal. -/
def wrap (w : Wrapper) (c : Correctness) : Except Mistype Correctness :=
  match w with
  | .alt =>
    if c.base ≠ .B then .error (.wrapped c.base)
    else .ok ⟨.W, .any, c.dissatisfiable, c.unit⟩
  | .swap =>
    if c.base ≠ .B then .error (.wrapped c.base)
    else if !c.input.isSubtype .one then .error .swapNotOne
    else .ok ⟨.W, .any, c.dissatisfiable, c.unit⟩
  | .check =>
    if c.base ≠ .K then .error (.wrapped c.base)
    else .ok ⟨.B, c.input, c.dissatisfiable, true⟩
  | .dupIf =>
    if c.base ≠ .V then .error (.wrapped c.base)
    else if c.input ≠ .zero then .error .dupIfNotZero
    else .ok ⟨.B, .oneNonZero, true, false⟩
  | .verify =>
    if c.base ≠ .B then .error (.wrapped c.base)
    else .ok ⟨.V, c.input, false, false⟩
  | .nonZero =>
    if c.input ≠ .oneNonZero ∧ c.input ≠ .anyNonZero then .error .nonZeroMayBeZero
    else if c.base ≠ .B then .error (.wrapped c.base)
    else .ok ⟨.B, c.input, true, c.unit⟩
  | .zeroNotEqual =>
    if c.base ≠ .B then .error (.wrapped c.base)
    else .ok ⟨.B, c.input, c.dissatisfiable, true⟩

/-- What `or_d`, `or_c` and `andor` ask of their first part. -/
def checkLeft (c : Correctness) : Except Mistype Unit :=
  if !c.dissatisfiable then .error .leftNotDissatisfiable
  else if !c.unit then .error .leftNotUnit
  else .ok ()

/-- The type of a combination of two fragments. -/
def pair (op : Combinator) (l r : Correctness) : Except Mistype Correctness :=
  match op with
  | .andB =>
    if l.base ≠ .B ∨ r.base ≠ .W then .error (.paired l.base r.base)
    else .ok ⟨.B, l.input.andThen r.input, l.dissatisfiable && r.dissatisfiable, true⟩
  | .andV =>
    if l.base ≠ .V ∨ r.base = .W then .error (.paired l.base r.base)
    else .ok ⟨r.base, l.input.andThen r.input, false, r.unit⟩
  | .orB =>
    if l.base ≠ .B ∨ r.base ≠ .W then .error (.paired l.base r.base)
    else if !l.dissatisfiable then .error .leftNotDissatisfiable
    else if !r.dissatisfiable then .error .rightNotDissatisfiable
    else .ok ⟨.B, l.input.both r.input, true, true⟩
  | .orD =>
    if l.base ≠ .B ∨ r.base ≠ .B then .error (.paired l.base r.base)
    else match l.checkLeft with
      | .error e => .error e
      | .ok () => .ok ⟨.B, l.input.orElse r.input, r.dissatisfiable, r.unit⟩
  | .orC =>
    if l.base ≠ .B ∨ r.base ≠ .V then .error (.paired l.base r.base)
    else match l.checkLeft with
      | .error e => .error e
      | .ok () => .ok ⟨.V, l.input.orElse r.input, false, false⟩
  | .orI =>
    if l.base ≠ r.base ∨ l.base = .W then .error (.paired l.base r.base)
    else
      let input := if l.input = .zero ∧ r.input = .zero then .one else .any
      .ok ⟨l.base, input, l.dissatisfiable || r.dissatisfiable, l.unit && r.unit⟩

/-- The type of `andor(X,Y,Z)`. -/
def andor (x y z : Correctness) : Except Mistype Correctness :=
  if x.base ≠ .B ∨ y.base ≠ z.base ∨ y.base = .W then .error (.branched x.base y.base z.base)
  else match x.checkLeft with
    | .error e => .error e
    | .ok () =>
      .ok ⟨y.base, x.input.branch y.input z.input, z.dissatisfiable, y.unit && z.unit⟩

/-- What a threshold asks of its part number `index`: the first is a B and the others are W, all are
units and can be dissatisfied. -/
def checkSub (index : Nat) (c : Correctness) : Except Mistype Unit :=
  let expected := if index = 0 then Base.B else Base.W
  if c.base ≠ expected then .error (.subBase index c.base expected)
  else if !c.unit then .error (.subNotUnit index)
  else if !c.dissatisfiable then .error (.subNotDissatisfiable index)
  else .ok ()

/-- What a threshold asks of its parts from number `index` on. -/
def checkSubs (index : Nat) : List Correctness → Except Mistype Unit
  | [] => .ok ()
  | c :: rest => match c.checkSub index with
    | .error e => .error e
    | .ok () => checkSubs (index + 1) rest

/-- The type of a threshold over parts that it accepts. -/
def ofSubs (subs : List Correctness) : Correctness :=
  ⟨.B, .all (subs.map input), true, true⟩

/-- The type of a threshold. -/
def threshold (subs : List Correctness) : Except Mistype Correctness :=
  match checkSubs 0 subs with
  | .error e => .error e
  | .ok () => .ok (ofSubs subs)

end Correctness

end LockScript
