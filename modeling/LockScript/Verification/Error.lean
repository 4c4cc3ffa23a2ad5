import LockScript.Fragment.Checked

/-!
What can be wrong with the claims of a tree, and its wording.
-/

namespace LockScript

namespace Verification

/-- What is wrong with the claims of a tree. -/
inductive Error where
  /-- A part has no facts at all. -/
  | untyped (e : Fragment.TypeError)
  /-- A part claims one type and has another. -/
  | type (f : Fragment) (claimed found : ScriptType)
  /-- A part claims one cost and has another. -/
  | cost (f : Fragment) (claimed found : Cost Int64)

/-- The wording of a yes or no in a cost. -/
def yesNo (b : Bool) : String := if b then "true" else "false"

/-- The wording of a count in a cost. -/
def countText : OpCount Int64 → String
  | none => "\x7bValid:false Value:0\x7d"
  | some n => s!"\x7bValid:true Value:{n}\x7d"

/-- The wording of a cost. -/
def costText (c : Cost Int64) : String :=
  s!"\x7bLegacySafe:{c.legacy.name} PkCost:{c.size} HasVerifyForm:{yesNo c.verifyForm} "
    ++ s!"OpsCountStatic:{c.staticOps} OpsCountSat:{countText c.satOps} "
    ++ s!"OpsCountNSat:{countText c.dissatOps}\x7d"

namespace Error

/-- The fragment that the error is about. -/
def fragment : Error → Fragment
  | .untyped e => e.fragment
  | .type f _ _ => f
  | .cost f _ _ => f

/-- The wording of the error. -/
def message : Error → String
  | .untyped e => (Checked.refused e.fragment e.refusal).message
  | .type f claimed found =>
    s!"fragment {quoted f.text} claims type {claimed.text} but checks as {found.text}"
  | .cost f claimed found =>
    s!"fragment {quoted f.text} claims cost data {costText claimed} but checks as "
      ++ costText found

end Error

end Verification

end LockScript
