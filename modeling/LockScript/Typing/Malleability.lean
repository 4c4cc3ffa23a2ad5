import LockScript.Fragment.Basic
import LockScript.Typing.Counting

/-!
Malleability types: whether a third party could turn a valid witness into a different valid one.
-/

namespace LockScript

/-- What is known of the dissatisfactions of a fragment. -/
inductive Dissat where
  /-- There is none. -/
  | none
  /-- There is exactly one that a third party could produce. -/
  | unique
  /-- Nothing is known. -/
  | unknown
  /-- A code of a stored type that stands for none of the three. -/
  | other (code : UInt8)
  deriving DecidableEq, Repr

namespace Dissat

/-- The name of a kind of dissatisfaction. -/
def name : Dissat → String
  | .none => "None"
  | .unique => "Unique"
  | .unknown => "Unknown"
  | .other _ => "?"

/-- Whether the first may stand where the second is expected. -/
def isSubtype (d other : Dissat) : Bool := d = other || other = .unknown

end Dissat

/-- The malleability type of a fragment. -/
structure Malleability where
  dissat : Dissat
  /-- Every satisfaction requires a signature. -/
  safe : Bool
  /-- A satisfaction that no third party can change always exists. -/
  nonMalleable : Bool
  deriving DecidableEq, Repr

namespace Malleability

/-- Whether a fragment of the first type may stand where the second is expected. -/
def isSubtype (m other : Malleability) : Bool :=
  m.dissat.isSubtype other.dissat && (m.safe || !other.safe)
    && (m.nonMalleable || !other.nonMalleable)

/-! ## Leaves -/

/-- The type of `0`. -/
def zero : Malleability := ⟨.unique, true, true⟩

/-- The type of `1`. -/
def one : Malleability := ⟨.none, false, true⟩

/-- The type of `pk`, `pk_h` and `thresh_m`. -/
def key : Malleability := ⟨.unique, true, true⟩

/-- The type of a hash lock. -/
def hashLock : Malleability := ⟨.unknown, false, true⟩

/-- The type of a lock time. -/
def timeLock : Malleability := ⟨.none, false, true⟩

/-- The type of a leaf. -/
def ofLeaf : Leaf → Malleability
  | .zero => zero
  | .one => one
  | .pk _ => key
  | .pkHash _ => key
  | .after _ => timeLock
  | .older _ => timeLock
  | .hashLock _ _ => hashLock
  | .multi _ _ => key

/-! ## Compositions -/

/-- The type after adding a way to dissatisfy by 0: it is the only one if there was none before. -/
def withDissat (m : Malleability) : Malleability :=
  ⟨if m.dissat = .none then .unique else .unknown, m.safe, m.nonMalleable⟩

/-- The type of a wrapper around a fragment. -/
def wrap (w : Wrapper) (m : Malleability) : Malleability :=
  match w with
  | .alt => m
  | .swap => m
  | .check => ⟨m.dissat, true, m.nonMalleable⟩
  | .dupIf => m.withDissat
  | .verify => ⟨.none, m.safe, m.nonMalleable⟩
  | .nonZero => m.withDissat
  | .zeroNotEqual => m

/-- The dissatisfactions of a conjunction. -/
def andDissat (l r : Malleability) : Dissat :=
  if l.dissat = .none ∧ r.dissat = .none then .none
  else if l.dissat = .none ∧ l.safe then .none
  else if r.dissat = .none ∧ r.safe then .none
  else if l.dissat = .unique ∧ r.dissat = .unique ∧ l.safe ∧ r.safe then .unique
  else .unknown

/-- The dissatisfactions of a choice made by the spender. -/
def choiceDissat (l r : Dissat) : Dissat :=
  if l = .none ∧ r = .none then .none
  else if (l = .none ∧ r = .unique) ∨ (l = .unique ∧ r = .none) then .unique
  else .unknown

/-- The type of a combination of two fragments. -/
def pair (op : Combinator) (l r : Malleability) : Malleability :=
  match op with
  | .andV => ⟨andDissat l r, l.safe || r.safe, l.nonMalleable && r.nonMalleable⟩
  | .andB => ⟨andDissat l r, l.safe || r.safe, l.nonMalleable && r.nonMalleable⟩
  | .orB =>
    ⟨.unique, l.safe && r.safe,
      l.nonMalleable && l.dissat = .unique && r.nonMalleable && r.dissat = .unique
        && (l.safe || r.safe)⟩
  | .orD =>
    ⟨r.dissat, l.safe && r.safe,
      l.nonMalleable && l.dissat = .unique && r.nonMalleable && (l.safe || r.safe)⟩
  | .orC =>
    ⟨.none, l.safe && r.safe,
      l.nonMalleable && l.dissat = .unique && r.nonMalleable && (l.safe || r.safe)⟩
  | .orI =>
    ⟨choiceDissat l.dissat r.dissat, l.safe && r.safe,
      l.nonMalleable && r.nonMalleable && (l.safe || r.safe)⟩

/-- The dissatisfactions of `andor(X,Y,Z)`. -/
def andorDissat (x y z : Malleability) : Dissat :=
  if (y.dissat = .none ∧ z.dissat = .unique) ∨ (x.safe ∧ z.dissat = .unique) then .unique
  else if (y.dissat = .none ∧ z.dissat = .none) ∨ (x.safe ∧ z.dissat = .none) then .none
  else .unknown

/-- The type of `andor(X,Y,Z)`. -/
def andor (x y z : Malleability) : Malleability :=
  ⟨andorDissat x y z, (x.safe || y.safe) && z.safe,
    x.nonMalleable && y.nonMalleable && z.nonMalleable && x.dissat = .unique
      && (x.safe || y.safe || z.safe)⟩

/-- The number of fragments of which every satisfaction requires a signature. -/
def countSafe (subs : List Malleability) : Nat := subs.countP safe

/-- The type of a threshold of `k` out of `n`, where `subs` are the `n` parts. -/
def threshold {ν : Type} [Sub ν] [Counting ν] (k n : ν) (subs : List Malleability) :
    Malleability :=
  let safeSubs : Int := countSafe subs
  let spare := Counting.toInt (n - k)
  let allUnique := subs.all fun m => m.dissat = .unique
  let allNonMalleable := subs.all nonMalleable
  ⟨if allUnique ∧ (Counting.toInt k = 1 ∨ safeSubs = Counting.toInt n) then .unique else .unknown,
    safeSubs > spare,
    allNonMalleable && allUnique && safeSubs ≥ spare⟩

end Malleability

namespace Fragment

mutual

/-- The malleability type of a fragment. -/
def malleability : Fragment → Malleability
  | .leaf l => .ofLeaf l
  | .wrap w x => .wrap w x.malleability
  | .pair op x y => .pair op x.malleability y.malleability
  | .andor x y z => x.malleability.andor y.malleability z.malleability
  | .thresh k subs => .threshold k (subs.length : Int) (malleabilities subs)

/-- The malleability types of several fragments. -/
def malleabilities : List Fragment → List Malleability
  | [] => []
  | x :: rest => x.malleability :: malleabilities rest

end

end Fragment

end LockScript
