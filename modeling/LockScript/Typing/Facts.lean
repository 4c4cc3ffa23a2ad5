import LockScript.Typing.Correctness
import LockScript.Typing.Malleability
import LockScript.Typing.Cost

/-!
The facts about a fragment: its type, which is correctness and malleability together, and its cost.

The facts of a composition follow from the facts of its parts. Every result is held against the
invariants of the types; a violation is an answer of its own, apart from fragments that do not fit
together.
-/

namespace LockScript

/-- The type of a fragment. -/
structure ScriptType where
  corr : Correctness
  mall : Malleability
  deriving DecidableEq, Repr

namespace ScriptType

/-- Whether a fragment of the first type may stand where the second is expected. -/
def isSubtype (t other : ScriptType) : Bool :=
  t.corr.isSubtype other.corr && t.mall.isSubtype other.mall

/-- The base, then one letter for each property: z, o and n for the input (nothing, one element, a
nonzero top), d for dissatisfiable, u for unit, m for non-malleable, s for safe, f for no and e for a
unique dissatisfaction. -/
def text (t : ScriptType) : String :=
  t.corr.base.letter
    ++ (match t.corr.input with
      | .zero => "z"
      | .one => "o"
      | .oneNonZero => "on"
      | .anyNonZero => "n"
      | .any => ""
      | .other _ => "")
    ++ (if t.corr.dissatisfiable then "d" else "")
    ++ (if t.corr.unit then "u" else "")
    ++ (if t.mall.nonMalleable then "m" else "")
    ++ (if t.mall.safe then "s" else "")
    ++ (match t.mall.dissat with
      | .none => "f"
      | .unique => "e"
      | .unknown => ""
      | .other _ => "")

end ScriptType

/-- An invariant of the types that a value breaks. -/
inductive Violation where
  | keyNotUnit
  | verifyUnitOrDissatisfiable
  | belowTopNonZero
  | satBelowStatic
  | dissatBelowStatic
  | dissatisfiableWithoutDissat
  | keyNotSafe
  | verifyWithDissat
  deriving DecidableEq, Repr

/-- The wording of a violation. -/
def Violation.message : Violation → String
  | .keyNotUnit => "miniscript: K fragment is not a unit"
  | .verifyUnitOrDissatisfiable => "miniscript: V fragment is a unit or dissatisfiable"
  | .belowTopNonZero => "miniscript: W fragment has a nonzero input"
  | .satBelowStatic => "miniscript: satisfaction op count below static count"
  | .dissatBelowStatic => "miniscript: dissatisfaction op count below static count"
  | .dissatisfiableWithoutDissat =>
    "miniscript: dissatisfiable fragment without dissatisfactions"
  | .keyNotSafe => "miniscript: K fragment that does not require a signature"
  | .verifyWithDissat => "miniscript: V fragment with dissatisfactions"

/-- The invariant of correctness types that is broken: a K is a unit, a V is neither a unit nor
dissatisfiable, and a W has no nonzero input. -/
def Correctness.violation? (c : Correctness) : Option Violation :=
  match c.base with
  | .K => if !c.unit then some .keyNotUnit else none
  | .V => if c.unit || c.dissatisfiable then some .verifyUnitOrDissatisfiable else none
  | .W =>
    if c.input = .oneNonZero ∨ c.input = .anyNonZero then some .belowTopNonZero else none
  | _ => none

/-- The invariant of costs that is broken: what is run is never less than what is counted in any
case. -/
def Cost.violation? {ν : Type} [Counting ν] (c : Cost ν) : Option Violation :=
  let isBelow (n : ν) : Bool := Counting.toInt n < Counting.toInt c.staticOps
  if c.satOps.any isBelow then some .satBelowStatic
  else if c.dissatOps.any isBelow then some .dissatBelowStatic
  else none

/-- The invariant between the two types that is broken: what is dissatisfiable has a dissatisfaction,
a K is safe, and a V has no dissatisfaction. -/
def ScriptType.violation? (t : ScriptType) : Option Violation :=
  if t.corr.dissatisfiable ∧ t.mall.dissat = .none then some .dissatisfiableWithoutDissat
  else if t.corr.base = .K ∧ !t.mall.safe then some .keyNotSafe
  else if t.corr.base = .V ∧ t.mall.dissat ≠ .none then some .verifyWithDissat
  else none

/-- The type and the cost of a fragment. -/
structure Facts (ν : Type) where
  type : ScriptType
  cost : Cost ν
  deriving DecidableEq, Repr

/-- Why a composition has no facts. -/
inductive Refusal where
  /-- The parts do not fit together. -/
  | mistyped (m : Mistype)
  /-- The result breaks an invariant. -/
  | broken (v : Violation)
  deriving DecidableEq, Repr

namespace Facts

variable {ν : Type} [Add ν] [Sub ν] [Counting ν]

/-- The facts made of their three parts, if all invariants hold. -/
def ofParts (corr : Correctness) (mall : Malleability) (cost : Cost ν) :
    Except Refusal (Facts ν) :=
  match corr.violation?, cost.violation?, (ScriptType.mk corr mall).violation? with
  | some v, _, _ => .error (.broken v)
  | none, some v, _ => .error (.broken v)
  | none, none, some v => .error (.broken v)
  | none, none, none => .ok ⟨⟨corr, mall⟩, cost⟩

/-- The facts with a correctness type that may be refused. -/
def ofChecked (corr : Except Mistype Correctness) (mall : Malleability) (cost : Cost ν) :
    Except Refusal (Facts ν) :=
  match corr with
  | .error m => .error (.mistyped m)
  | .ok c => ofParts c mall cost

/-- A threshold lies between 1 and the number of its parts. -/
def checkThreshold (k n : Int) : Except Mistype Unit :=
  if k = 0 then .error .zeroThreshold
  else if k < 0 ∨ k > n then .error (.overThreshold k n)
  else .ok ()

/-- What is asked of the numbers in a leaf. -/
def checkLeaf : Leaf → Except Mistype Unit
  | .after lock => if lock = 0 then .error .zeroTime else .ok ()
  | .older lock => if lock = 0 then .error .zeroTime else .ok ()
  | .multi k keys => checkThreshold k keys.length
  | _ => .ok ()

/-- The facts about a leaf. -/
def leaf (l : Leaf) : Except Refusal (Facts ν) :=
  ofChecked ((checkLeaf l).map fun _ => .ofLeaf l) (.ofLeaf l) (.ofExact (.ofLeaf l))

/-- The facts about a wrapper around a fragment. -/
def wrap (w : Wrapper) (x : Facts ν) : Except Refusal (Facts ν) :=
  ofChecked (Correctness.wrap w x.type.corr) (.wrap w x.type.mall) (.wrap w x.cost)

/-- The facts about a combination of two fragments. -/
def pair (op : Combinator) (x y : Facts ν) : Except Refusal (Facts ν) :=
  ofChecked (Correctness.pair op x.type.corr y.type.corr)
    (.pair op x.type.mall y.type.mall) (.pair op x.cost y.cost)

/-- The facts about `andor(X,Y,Z)`. -/
def andor (x y z : Facts ν) : Except Refusal (Facts ν) :=
  ofChecked (Correctness.andor x.type.corr y.type.corr z.type.corr)
    (.andor x.type.mall y.type.mall z.type.mall) (.andor x.cost y.cost z.cost)

/-- The facts about a threshold whose number and parts have been checked. -/
def ofSubs (k : Int) (subs : List (Facts ν)) : Except Refusal (Facts ν) :=
  ofParts (.ofSubs (subs.map fun x => x.type.corr))
    (.threshold k (subs.length : Int) (subs.map fun x => x.type.mall))
    (.threshold k (Counting.ofInt subs.length) (subs.map cost))

/-- The facts about a threshold. -/
def threshold (k : Int) (subs : List (Facts ν)) : Except Refusal (Facts ν) :=
  match checkThreshold k subs.length with
  | .error m => .error (.mistyped m)
  | .ok () => match Correctness.checkSubs 0 (subs.map fun x => x.type.corr) with
    | .error m => .error (.mistyped m)
    | .ok () => ofSubs k subs

end Facts

namespace Fragment

/-- A fragment that has no facts, and why. -/
structure TypeError where
  fragment : Fragment
  refusal : Refusal

variable {ν : Type} [Add ν] [Sub ν] [Counting ν]

/-- A refusal put down to the fragment whose facts were asked for. -/
def blame (f : Fragment) : Except Refusal (Facts ν) → Except TypeError (Facts ν)
  | .ok facts => .ok facts
  | .error refusal => .error ⟨f, refusal⟩

mutual

/-- The facts about a fragment, from its parts up. -/
def facts? : Fragment → Except TypeError (Facts ν)
  | .leaf l => blame (.leaf l) (Facts.leaf l)
  | .wrap w x => match x.facts? with
    | .error e => .error e
    | .ok fx => blame (.wrap w x) (Facts.wrap w fx)
  | .pair op x y => match x.facts?, y.facts? with
    | .error e, _ => .error e
    | _, .error e => .error e
    | .ok fx, .ok fy => blame (.pair op x y) (Facts.pair op fx fy)
  | .andor x y z => match x.facts?, y.facts?, z.facts? with
    | .error e, _, _ => .error e
    | _, .error e, _ => .error e
    | _, _, .error e => .error e
    | .ok fx, .ok fy, .ok fz => blame (.andor x y z) (Facts.andor fx fy fz)
  | .thresh k subs => match factsOf? subs with
    | .error e => .error e
    | .ok fs => blame (.thresh k subs) (Facts.threshold k fs)

/-- The facts about several fragments. -/
def factsOf? : List Fragment → Except TypeError (List (Facts ν))
  | [] => .ok []
  | x :: rest => match x.facts?, factsOf? rest with
    | .error e, _ => .error e
    | _, .error e => .error e
    | .ok fx, .ok fs => .ok (fx :: fs)

end

end Fragment

end LockScript
