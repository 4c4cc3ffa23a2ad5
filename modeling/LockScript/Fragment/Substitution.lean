import LockScript.Fragment.Checked

/-!
Replacing the keys of a fragment.
-/

namespace LockScript

/-- Why keys cannot be replaced: there is nothing to replace one with, or the result is refused. -/
inductive SubstitutionError (ε : Type) where
  | lookup (reason : ε)
  | check (e : Error)

namespace Fragment

variable {ε : Type} (lookup : Key → Except ε Key)

/-- The replacement of a key. -/
def replaceKey (key : Key) : Except (SubstitutionError ε) Key :=
  match lookup key with
  | .ok k => .ok k
  | .error reason => .error (.lookup reason)

/-- The replacements of keys. -/
def replaceKeys : List Key → Except (SubstitutionError ε) (List Key)
  | [] => .ok []
  | key :: rest => do
    let k ← replaceKey lookup key
    let ks ← replaceKeys rest
    .ok (k :: ks)

/-- A checked result as the result of a substitution. -/
def rechecked : Except Error Checked → Except (SubstitutionError ε) Checked
  | .ok m => .ok m
  | .error e => .error (.check e)

mutual

/-- The fragment with every key replaced, checked anew from its leaves up. -/
def substitute : Fragment → Except (SubstitutionError ε) Checked
  | .leaf (.pk key) => do
    let k ← replaceKey lookup key
    rechecked (Checked.leaf defaultLimit (.pk k))
  | .leaf (.multi k keys) => do
    let ks ← replaceKeys lookup keys
    rechecked (Checked.leaf defaultLimit (.multi k ks))
  | .leaf l => rechecked (Checked.leaf defaultLimit l)
  | .wrap w x => do
    let x ← x.substitute
    rechecked (Checked.wrap defaultLimit w x)
  | .pair op x y => do
    let x ← x.substitute
    let y ← y.substitute
    rechecked (Checked.pair defaultLimit op x y)
  | .andor x y z => do
    let x ← x.substitute
    let y ← y.substitute
    let z ← z.substitute
    rechecked (Checked.andor defaultLimit x y z)
  | .thresh k subs => do
    let subs ← substituteAll subs
    rechecked (Checked.thresh defaultLimit k subs)

/-- The fragments with every key replaced. -/
def substituteAll : List Fragment → Except (SubstitutionError ε) (List Checked)
  | [] => .ok []
  | x :: rest => do
    let m ← x.substitute
    let ms ← substituteAll rest
    .ok (m :: ms)

end

end Fragment

end LockScript
