import LockScript.Fragment.Text
import LockScript.Typing.Facts

/-!
Drawings of fragments: one line for each with its type, and lines between them.
-/

namespace LockScript.Fragment

/-- The name of a fragment without its parts; a leaf in full. -/
def label : Fragment → String
  | .leaf l => shown l.text
  | .wrap w _ => String.singleton w.letter ++ ":"
  | .pair op _ _ => op.name
  | .andor _ _ _ => "andor"
  | .thresh k _ => s!"thresh({k})"

/-- The line of a fragment: its label, its type, and a mark if it has a VERIFY form. -/
def line (f : Fragment) : String :=
  let type := match (f.facts? : Except TypeError (Facts Int64)) with
    | .ok facts => facts.type.text
    | .error _ => ""
  f.label ++ " [" ++ type ++ "]" ++ (if (f.cost Int64).verifyForm then " [v]" else "") ++ "\n"

/-- A part with the lines that lead to it. What is drawn below it is indented to the end of its label,
with a bar where more parts follow. -/
def branch (indent : String) (last : Bool) (label : String) (draw : String → String) : String :=
  let mark := if last then "└──" else "├──"
  let bar := if last then "" else "|"
  let padding := String.ofList (List.replicate (label.length + 3 - 1 - bar.length) ' ')
  indent ++ mark ++ draw (indent ++ bar ++ padding)

mutual

/-- The drawing of a fragment whose parts are indented by `indent`. -/
def drawAt : Fragment → (indent : String) → String
  | .leaf l, _ => line (.leaf l)
  | .wrap w x, indent => line (.wrap w x) ++ branch indent true x.label x.drawAt
  | .pair op x y, indent =>
    line (.pair op x y) ++ branch indent false x.label x.drawAt
      ++ branch indent true y.label y.drawAt
  | .andor x y z, indent =>
    line (.andor x y z) ++ branch indent false x.label x.drawAt
      ++ branch indent false y.label y.drawAt ++ branch indent true z.label z.drawAt
  | .thresh k subs, indent => line (.thresh k subs) ++ drawAllAt subs indent

/-- The drawings of the parts of a threshold. -/
def drawAllAt : List Fragment → (indent : String) → String
  | [], _ => ""
  | x :: rest, indent => branch indent rest.isEmpty x.label x.drawAt ++ drawAllAt rest indent

end

/-- The drawing of a fragment. -/
def draw (f : Fragment) : String := f.drawAt ""

end LockScript.Fragment
