import LockScript.Fragment.Checked

/-!
What is checked: a fragment put together from checked parts.

A `Composition` is one of the forms of fragments, whatever its own keys, hashes, lock times and
thresholds are. The check may also be handed something that has checked parts and is none of the
forms, and keys that have no text, which is no matter until an error has to name the fragment. There
the check breaks off without an answer, as it does where an invariant of the types is broken.
-/

namespace LockScript

/-- A fragment put together from checked parts. -/
inductive Composition where
  | leaf (l : Leaf)
  | wrap (w : Wrapper) (x : Checked)
  | pair (op : Combinator) (x y : Checked)
  | andor (x y z : Checked)
  | thresh (k : Int) (subs : List Checked)

namespace Composition

/-- The fragment that is put together. -/
def fragment : Composition → Fragment
  | .leaf l => .leaf l
  | .wrap w x => .wrap w x.fragment
  | .pair op x y => .pair op x.fragment y.fragment
  | .andor x y z => .andor x.fragment y.fragment z.fragment
  | .thresh k subs => .thresh k (subs.map Checked.fragment)

/-- The fragment with its facts, or why there is none. -/
def check (limit : Int) : Composition → Except Error Checked
  | .leaf l => Checked.leaf limit l
  | .wrap w x => Checked.wrap limit w x
  | .pair op x y => Checked.pair limit op x y
  | .andor x y z => Checked.andor limit x y z
  | .thresh k subs => Checked.thresh limit k subs

end Composition

/-- What the check is handed. -/
inductive Terminal where
  /-- One of the forms of fragments. -/
  | composed (c : Composition)
  /-- None of the forms, with parts all the same. -/
  | foreign (parts : List Checked)

/-- Why a check breaks off. -/
inductive Breakdown where
  | unknownForm
  /-- An error would have to name a fragment with a key that has no text. -/
  | keyWithoutText
  /-- An invariant of the types is broken. -/
  | broken (v : Violation)
  deriving DecidableEq, Repr

/-- The wording of a breakdown. -/
def Breakdown.message : Breakdown → String
  | .unknownForm => "miniscript: unknown fragment type"
  | .keyWithoutText => "runtime error: invalid memory address or nil pointer dereference"
  | .broken v => v.message

namespace Terminal

/-- How deep the parts are nested. -/
def depth : Terminal → Nat
  | .composed c => c.fragment.depth
  | .foreign parts => Fragment.maxDepth (parts.map Checked.fragment) + 1

/-- The answer of the check, a checked fragment or an error, unless it breaks off. -/
def check (hasText : Key → Bool) (limit : Int) (t : Terminal) :
    Except Breakdown (Except Error Checked) :=
  match t with
  | .composed c => match c.check limit with
    | .ok m => .ok (.ok m)
    | .error e => match e.cause with
      | .broken v => .error (.broken v)
      | .mistyped f _ => if f.keys.all hasText then .ok (.error e) else .error .keyWithoutText
      | _ => .ok (.error e)
  | .foreign parts =>
    if limit < (foreign parts).depth then
      .ok (.error ⟨.tooDeep (foreign parts).depth limit, none⟩)
    else .error .unknownForm

end Terminal

end LockScript
