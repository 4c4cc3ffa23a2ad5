import LockScript.Fragment.Error

/-!
Checked fragments: fragments with their facts.

A checked fragment is made of checked parts, so that only one step is checked at a time; its facts are
still those that the whole fragment has from its leaves up. Nesting is bounded by a limit that the
maker chooses.
-/

namespace LockScript

/-- The nesting limit where none is chosen. -/
def defaultLimit : Int := 402

/-- A fragment with its facts. -/
structure Checked where
  fragment : Fragment
  facts : Facts Int64
  typed : fragment.facts? = .ok facts

namespace Checked

/-- The type of a checked fragment. -/
def type (m : Checked) : ScriptType := m.facts.type

/-- The cost of a checked fragment. -/
def cost (m : Checked) : Cost Int64 := m.facts.cost

/-- The canonical text of a checked fragment. -/
def text (m : Checked) : Bytes := m.fragment.text

/-- A fragment has only one set of facts. -/
theorem eq_of_fragment_eq {m m' : Checked} (same : m.fragment = m'.fragment) : m = m' := by
  obtain ⟨f, facts, typed⟩ := m
  obtain ⟨f', facts', typed'⟩ := m'
  subst same
  rw [typed] at typed'
  cases typed'
  rfl

/-- The error of a refused fragment. -/
def refused (f : Fragment) : Refusal → Error
  | .mistyped m => ⟨.mistyped f m, none⟩
  | .broken v => ⟨.broken v, none⟩

/-- The fragment with the facts that were found for it, if it is not nested beyond the limit. -/
def accept (limit : Int) (f : Fragment) (found : Except Refusal (Facts Int64))
    (agrees : f.facts? = f.blame found) : Except Error Checked :=
  if limit < f.depth then .error ⟨.tooDeep f.depth limit, none⟩
  else match found, agrees with
    | .ok facts, agrees => .ok ⟨f, facts, agrees⟩
    | .error refusal, _ => .error (refused f refusal)

/-- A leaf. -/
def leaf (limit : Int) (l : Leaf) : Except Error Checked :=
  accept limit (.leaf l) (Facts.leaf l) rfl

/-- A wrapper around a checked fragment. -/
def wrap (limit : Int) (w : Wrapper) (x : Checked) : Except Error Checked :=
  accept limit (.wrap w x.fragment) (Facts.wrap w x.facts) (by simp [Fragment.facts?, x.typed])

/-- A combination of two checked fragments. -/
def pair (limit : Int) (op : Combinator) (x y : Checked) : Except Error Checked :=
  accept limit (.pair op x.fragment y.fragment) (Facts.pair op x.facts y.facts)
    (by simp [Fragment.facts?, x.typed, y.typed])

/-- `andor` of three checked fragments. -/
def andor (limit : Int) (x y z : Checked) : Except Error Checked :=
  accept limit (.andor x.fragment y.fragment z.fragment) (Facts.andor x.facts y.facts z.facts)
    (by simp [Fragment.facts?, x.typed, y.typed, z.typed])

/-- Checked fragments have the facts that they carry. -/
theorem factsOf?_map (subs : List Checked) :
    Fragment.factsOf? (subs.map fragment) = .ok (subs.map facts) := by
  induction subs with
  | nil => rfl
  | cons x rest ih => simp [Fragment.factsOf?, x.typed, ih]

/-- A threshold over checked fragments. -/
def thresh (limit : Int) (k : Int) (subs : List Checked) : Except Error Checked :=
  accept limit (.thresh k (subs.map fragment)) (Facts.threshold k (subs.map facts))
    (by simp [Fragment.facts?, factsOf?_map])

end Checked

end LockScript
