import LockScript.Text.Bytes

/-!
Expressions of the form `name(argument,argument,...)`, the shape that fragments and policies share.
-/

namespace LockScript

/-- A name with arguments, and the offset in the text where reading it began. -/
inductive Expression where
  | node (name : Bytes) (offset : Nat) (args : List Expression)

namespace Expression

/-- The name. -/
def name : Expression → Bytes
  | .node name _ _ => name

/-- The offset in the text where reading the expression began, before any white space. -/
def offset : Expression → Nat
  | .node _ offset _ => offset

/-- The arguments. -/
def args : Expression → List Expression
  | .node _ _ args => args

mutual

/-- The text of an expression, without white space. One without arguments has no parentheses. -/
def text : Expression → Bytes
  | .node name _ [] => name
  | .node name _ (arg :: args) =>
    name ++ byte '(' :: (arg.text ++ textAfter args ++ [byte ')'])

/-- The texts of further arguments, each after a comma. -/
def textAfter : List Expression → Bytes
  | [] => []
  | arg :: args => byte ',' :: (arg.text ++ textAfter args)

end

end Expression

end LockScript
