import LockScript.Policy.Condition

/-!
Policies: what has to be met to spend, whatever script enforces it.

A policy is a condition or a threshold over policies. A conjunction is a threshold that needs all of
its branches, a disjunction one that needs a single branch.
-/

namespace LockScript

/-- What has to be met to spend. -/
inductive Policy where
  /-- A condition. Policies attached to it are listed with it but not required. -/
  | leaf (c : Condition) (attached : List Policy)
  /-- At least `k` of the branches. -/
  | threshold (k : Int) (branches : List Policy)

namespace Policy

/-- Induction in which all attached policies and all branches satisfy the motive. -/
@[induction_eliminator]
theorem induction {motive : Policy → Prop}
    (leaf : ∀ c attached, (∀ p ∈ attached, motive p) → motive (.leaf c attached))
    (threshold : ∀ k branches, (∀ p ∈ branches, motive p) → motive (.threshold k branches))
    (p : Policy) : motive p :=
  @Policy.rec motive (fun ps => ∀ p ∈ ps, motive p)
    leaf threshold
    (fun _ h => absurd h List.not_mem_nil)
    (fun _ _ head tail _ h => (List.mem_cons.1 h).elim (fun eq => eq ▸ head) (tail _))
    p

/-- The policy that is never met. -/
def unsatisfiable : Policy := .leaf .unsatisfiable []

/-- The policy that is always met. -/
def trivial : Policy := .leaf .trivial []

/-- The name of the kind of policy. -/
def name : Policy → String
  | .leaf c _ => c.name
  | .threshold _ _ => "thresh"

mutual

/-- The text of a policy. A threshold that needs all of its branches is written as `and`, otherwise
one that needs a single branch as `or`. -/
def text : Policy → Bytes
  | .leaf c _ => c.text
  | .threshold k branches =>
    (if k = branches.length then utf8 "and("
      else if k = 1 then utf8 "or("
      else utf8 "thresh(" ++ Decimal.ofInt k ++ [byte ','])
    ++ joinWith [byte ','] (textsOf branches) ++ [byte ')']

/-- The texts of several policies. -/
def textsOf : List Policy → List Bytes
  | [] => []
  | p :: rest => p.text :: textsOf rest

end

/-- The texts are those of the policies one by one. -/
theorem textsOf_eq_map (ps : List Policy) : textsOf ps = ps.map text := by
  induction ps with
  | nil => rfl
  | cons p rest ih => simp [textsOf, ih]

mutual

/-- All conditions of a policy in the order in which they are written, with those attached to a
condition after it. -/
def conditions : Policy → List Condition
  | .leaf c attached => c :: conditionsOf attached
  | .threshold _ branches => conditionsOf branches

/-- The conditions of several policies. -/
def conditionsOf : List Policy → List Condition
  | [] => []
  | p :: rest => p.conditions ++ conditionsOf rest

end

/-- The keys of a policy. A key that is only given by its hash is none of them. -/
def keys (p : Policy) : List Key :=
  p.conditions.filterMap fun c => match c with
    | .key key => some key
    | _ => none

/-- The number of keys of a policy, by themselves or by their hash. -/
def keyCount (p : Policy) : Nat :=
  p.conditions.countP fun c => match c with
    | .key _ => true
    | .keyHash _ => true
    | _ => false

/-- Numbers in ascending order, each once. -/
def ascending (locks : List UInt32) : List UInt32 := locks.eraseDups.mergeSort (· ≤ ·)

/-- The relative lock times of a policy in ascending order. -/
def relativeLocks (p : Policy) : List UInt32 :=
  ascending (p.conditions.filterMap fun c => match c with
    | .older lock => some lock
    | _ => none)

/-- The absolute lock times of a policy in ascending order. -/
def absoluteLocks (p : Policy) : List UInt32 :=
  ascending (p.conditions.filterMap fun c => match c with
    | .after lock => some lock
    | _ => none)

end Policy

end LockScript
