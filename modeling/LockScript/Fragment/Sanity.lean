import LockScript.Fragment.Checked

/-!
Whether a fragment can be used as a whole script, and whether that is wise.

A script stands on its own if it is not too long and leaves its result on the stack. It is sane if
moreover no satisfaction runs too many operations, no third party can change a witness, and nobody can
spend without a signature.
-/

namespace LockScript

namespace Sanity

/-- The size up to which scripts are relayed. -/
def maxStandardSize : Int := 3600

/-- The number of operations up to which a script is valid. -/
def maxOps : Int := 201

/-- Why a fragment is no sane script. -/
inductive Cause where
  | tooLarge (size : Int)
  | notTopLevel (base : Base)
  | tooManyOps (ops : Int)
  /-- A choice of which no branch requires a signature. -/
  | noStrongBranch
  /-- A threshold with too few parts that require a signature. -/
  | weakThreshold (safe total needed : Int)
  | malleable
  | noSignature

/-- What is not sane about which fragment. -/
structure Error where
  fragment : Fragment
  cause : Cause

/-- The wording of an error. -/
def Error.message (e : Error) : String :=
  match e.cause with
  | .tooLarge size =>
    s!"the script size is {size}, which is larger than the maximum standard P2WSH script size of "
      ++ s!"{maxStandardSize}"
  | .notTopLevel base =>
    s!"expression {quoted e.fragment.text} expected to have type B, but is type {base.letter}"
  | .tooManyOps ops =>
    s!"the script requires a maximum number of {ops} ops, which is larger than the consensus limit "
      ++ s!"of {maxOps}"
  | .noStrongBranch =>
    s!"fragment {quoted e.fragment.text} requires a signature on at least one branch to be "
      ++ "non-malleable"
  | .weakThreshold safe total needed =>
    s!"fragment {quoted e.fragment.text} has {safe} of {total} children requiring a signature, need "
      ++ s!"at least {needed}"
  | .malleable => s!"fragment {quoted e.fragment.text} is malleable"
  | .noSignature => "does not need signature"

end Sanity

namespace Fragment

/-- Whether a witness that no third party can change always exists. -/
def isNonMalleable (f : Fragment) : Bool := f.malleability.nonMalleable

mutual

/-- The first innermost part of a fragment that is malleable. -/
def culprit? : Fragment → Option Fragment
  | .leaf l => if isNonMalleable (.leaf l) then none else some (.leaf l)
  | .wrap w x =>
    if isNonMalleable (.wrap w x) then none else x.culprit?.or (some (.wrap w x))
  | .pair op x y =>
    if isNonMalleable (.pair op x y) then none
    else (x.culprit?.or y.culprit?).or (some (.pair op x y))
  | .andor x y z =>
    if isNonMalleable (.andor x y z) then none
    else ((x.culprit?.or y.culprit?).or z.culprit?).or (some (.andor x y z))
  | .thresh k subs =>
    if isNonMalleable (.thresh k subs) then none
    else (culpritOf? subs).or (some (.thresh k subs))

/-- The first innermost malleable part of several fragments. -/
def culpritOf? : List Fragment → Option Fragment
  | [] => none
  | x :: rest => x.culprit?.or (culpritOf? rest)

end

/-- Whether every satisfaction of the fragment requires a signature. -/
def isSafe (f : Fragment) : Bool := f.malleability.safe

/-- Why a choice between these branches is malleable. -/
def choiceCause (branches : List Fragment) : Sanity.Cause :=
  if branches.any isSafe then .malleable else .noStrongBranch

/-- Why a fragment with no malleable parts is malleable itself. -/
def malleableCause : Fragment → Sanity.Cause
  | .pair .orB x z => choiceCause [x, z]
  | .pair .orD x z => choiceCause [x, z]
  | .pair .orC x z => choiceCause [x, z]
  | .pair .orI x z => choiceCause [x, z]
  | .andor x y z => choiceCause [x, y, z]
  | .thresh k subs =>
    let safe : Int := subs.countP isSafe
    let total : Int := subs.length
    if safe < total - k then .weakThreshold safe total (total - k) else .malleable
  | _ => .malleable

/-- Accepts a fragment for which a witness that no third party can change always exists; otherwise
names the culprit. -/
def checkNonMalleable (f : Fragment) : Except Sanity.Error Unit :=
  match f.culprit? with
  | none => .ok ()
  | some culprit => .error ⟨culprit, culprit.malleableCause⟩

end Fragment

namespace Checked

/-- The length of the script in bytes. -/
def scriptSize (m : Checked) : Int := m.cost.size.toInt

/-- The most operations that a satisfaction runs, or those counted in any case if there is none. -/
def opCount (m : Checked) : Int := (m.cost.satOps.getD m.cost.staticOps).toInt

/-- Accepts a fragment whose script is not too long to be relayed. -/
def checkSize (m : Checked) : Except Sanity.Error Unit :=
  if m.scriptSize > Sanity.maxStandardSize then .error ⟨m.fragment, .tooLarge m.scriptSize⟩
  else .ok ()

/-- Accepts a fragment that is valid as a script on its own. -/
def checkTopLevel (m : Checked) : Except Sanity.Error Unit := do
  m.checkSize
  if m.type.corr.base ≠ .B then .error ⟨m.fragment, .notTopLevel m.type.corr.base⟩
  else .ok ()

/-- Accepts a fragment of which no satisfaction exceeds the limit on operations. -/
def checkOps (m : Checked) : Except Sanity.Error Unit := do
  m.checkSize
  if m.opCount > Sanity.maxOps then .error ⟨m.fragment, .tooManyOps m.opCount⟩ else .ok ()

/-- Accepts a fragment that is safe as a script on its own. -/
def checkSane (m : Checked) : Except Sanity.Error Unit := do
  m.checkTopLevel
  m.checkOps
  m.fragment.checkNonMalleable
  if m.type.mall.safe then .ok () else .error ⟨m.fragment, .noSignature⟩

end Checked

end LockScript
