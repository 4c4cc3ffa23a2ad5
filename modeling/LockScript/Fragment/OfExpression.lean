import LockScript.Fragment.Build
import LockScript.Expression.Basic

/-!
Fragments from expressions.
-/

namespace LockScript.Fragment

/-- The letters, the name and its offset in the name of an expression, which is cut at a colon. -/
def splitName (name : Bytes) (offset : Nat) : Except Error (Bytes × Bytes × Nat) :=
  match splitBefore (· = byte ':') name with
  | (_, []) => .ok ([], name, offset)
  | (letters, _ :: rest) =>
    if rest.contains (byte ':') then textError (.secondColon name) offset
    else if letters = [] then textError .noWrappers offset
    else .ok (letters, rest, offset + (name.length - rest.length))

mutual

/-- The fragment that an expression `depth` levels down stands for. -/
def ofExpressionAt (s : Settings) (depth : Nat) : Expression → Except Error Checked
  | .node name offset args => do
    if s.limit ≤ depth then .error ⟨.nesting s.limit, some offset⟩
    else
      let (letters, name, nameOffset) ← splitName name offset
      match Head.ofName? name with
      | none => textError (.unknownFragment name) nameOffset
      | some head =>
        let shape := head.shape
        if shape.rest.isNone ∧ args.length > shape.fixed.length then
          textError (.tooManyArguments name shape.fixed.length) nameOffset
        else
          let args ← argsOf s depth shape 0 args
          let m ← build s head name nameOffset args
          applyLetters s.limit offset 0 letters m

/-- The arguments from number `index` on of a fragment `depth` levels down. -/
def argsOf (s : Settings) (depth : Nat) (shape : Shape) :
    (index : Nat) → List Expression → Except Error (List Arg)
  | _, [] => .ok []
  | index, arg :: rest => do
    let first ←
      if shape.kind? index = some .fragment then
        (ofExpressionAt s (depth + 1) arg).map Arg.fragment
      else if arg.args.isEmpty then .ok (.word arg.name arg.offset)
      else textError (.argumentsToLeaf arg.name) arg.offset
    let others ← argsOf s depth shape (index + 1) rest
    .ok (first :: others)

end

/-- The fragment that an expression stands for. -/
def ofExpression (s : Settings) (e : Expression) : Except Error Checked := ofExpressionAt s 0 e

end LockScript.Fragment
