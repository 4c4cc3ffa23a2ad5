import LockScript.Fragment.Checked

/-!
Fragments with claims: every part says which facts it has, rightly or wrongly.

Such a tree comes from elsewhere, or from a checked fragment, whose parts claim what they have.
-/

namespace LockScript

/-- A fragment in which every part claims to have certain facts. -/
inductive Claimed where
  | leaf (claim : Facts Int64) (l : Leaf)
  | wrap (claim : Facts Int64) (w : Wrapper) (x : Claimed)
  | pair (claim : Facts Int64) (op : Combinator) (x y : Claimed)
  | andor (claim : Facts Int64) (x y z : Claimed)
  | thresh (claim : Facts Int64) (k : Int) (subs : List Claimed)

namespace Claimed

/-- Induction in which the parts of a threshold all satisfy the motive. -/
@[induction_eliminator]
theorem induction {motive : Claimed → Prop}
    (leaf : ∀ claim l, motive (.leaf claim l))
    (wrap : ∀ claim w x, motive x → motive (.wrap claim w x))
    (pair : ∀ claim op x y, motive x → motive y → motive (.pair claim op x y))
    (andor : ∀ claim x y z, motive x → motive y → motive z → motive (.andor claim x y z))
    (thresh : ∀ claim k subs, (∀ x ∈ subs, motive x) → motive (.thresh claim k subs))
    (c : Claimed) : motive c :=
  @Claimed.rec motive (fun subs => ∀ x ∈ subs, motive x)
    leaf wrap pair andor thresh
    (fun _ h => absurd h List.not_mem_nil)
    (fun _ _ head tail _ h => (List.mem_cons.1 h).elim (fun eq => eq ▸ head) (tail _))
    c

/-- The facts that the whole claims to have. -/
def claim : Claimed → Facts Int64
  | .leaf claim _ => claim
  | .wrap claim _ _ => claim
  | .pair claim _ _ _ => claim
  | .andor claim _ _ _ => claim
  | .thresh claim _ _ => claim

/-- The same with another claim for the whole. -/
def withClaim (claim : Facts Int64) : Claimed → Claimed
  | .leaf _ l => .leaf claim l
  | .wrap _ w x => .wrap claim w x
  | .pair _ op x y => .pair claim op x y
  | .andor _ x y z => .andor claim x y z
  | .thresh _ k subs => .thresh claim k subs

mutual

/-- The fragment without the claims. -/
def fragment : Claimed → Fragment
  | .leaf _ l => .leaf l
  | .wrap _ w x => .wrap w x.fragment
  | .pair _ op x y => .pair op x.fragment y.fragment
  | .andor _ x y z => .andor x.fragment y.fragment z.fragment
  | .thresh _ k subs => .thresh k (fragments subs)

/-- Several fragments without the claims. -/
def fragments : List Claimed → List Fragment
  | [] => []
  | x :: rest => x.fragment :: fragments rest

end

/-- The fragments are those of the trees one by one. -/
theorem fragments_eq_map (subs : List Claimed) : fragments subs = subs.map fragment := by
  induction subs with
  | nil => rfl
  | cons x rest ih => simp [fragments, ih]

/-- The canonical text of the fragment. -/
def text (c : Claimed) : Bytes := c.fragment.text

/-- The parts in the order in which they are written. -/
def children : Claimed → List Claimed
  | .leaf _ _ => []
  | .wrap _ _ x => [x]
  | .pair _ _ x y => [x, y]
  | .andor _ x y z => [x, y, z]
  | .thresh _ _ subs => subs

/-- The same with `new` as its parts, if there are as many as before. -/
def withChildren? : Claimed → List Claimed → Option Claimed
  | .leaf claim l, [] => some (.leaf claim l)
  | .wrap claim w _, [x] => some (.wrap claim w x)
  | .pair claim op _ _, [x, y] => some (.pair claim op x y)
  | .andor claim _ _ _, [x, y, z] => some (.andor claim x y z)
  | .thresh claim k subs, new =>
    if new.length = subs.length then some (.thresh claim k new) else none
  | _, _ => none

/-- The same with `new` in place of the part that the path leads to, each step being the index of a
part. What stood there leaves its claim behind. -/
def replaceAt? (c : Claimed) : (path : List Nat) → (new : Claimed) → Option Claimed
  | [], new => some (new.withClaim c.claim)
  | i :: path, new => do
    let x ← c.children[i]?
    let x' ← x.replaceAt? path new
    c.withChildren? (c.children.set i x')

end Claimed

namespace Fragment

mutual

/-- The fragment with every part claiming the facts that it has. -/
def annotated : Fragment → Except TypeError Claimed
  | .leaf l => match blame (.leaf l) (Facts.leaf l) with
    | .error e => .error e
    | .ok facts => .ok (.leaf facts l)
  | .wrap w x => match x.annotated with
    | .error e => .error e
    | .ok cx => match blame (.wrap w x) (Facts.wrap w cx.claim) with
      | .error e => .error e
      | .ok facts => .ok (.wrap facts w cx)
  | .pair op x y => match x.annotated, y.annotated with
    | .error e, _ => .error e
    | _, .error e => .error e
    | .ok cx, .ok cy => match blame (.pair op x y) (Facts.pair op cx.claim cy.claim) with
      | .error e => .error e
      | .ok facts => .ok (.pair facts op cx cy)
  | .andor x y z => match x.annotated, y.annotated, z.annotated with
    | .error e, _, _ => .error e
    | _, .error e, _ => .error e
    | _, _, .error e => .error e
    | .ok cx, .ok cy, .ok cz =>
      match blame (.andor x y z) (Facts.andor cx.claim cy.claim cz.claim) with
      | .error e => .error e
      | .ok facts => .ok (.andor facts cx cy cz)
  | .thresh k subs => match annotatedAll subs with
    | .error e => .error e
    | .ok cs => match blame (.thresh k subs) (Facts.threshold k (cs.map Claimed.claim)) with
      | .error e => .error e
      | .ok facts => .ok (.thresh facts k cs)

/-- Several fragments with every part claiming the facts that it has. -/
def annotatedAll : List Fragment → Except TypeError (List Claimed)
  | [] => .ok []
  | x :: rest => match x.annotated, annotatedAll rest with
    | .error e, _ => .error e
    | _, .error e => .error e
    | .ok cx, .ok cs => .ok (cx :: cs)

end

/-- The claims of several fragments follow from the claim of each. -/
theorem annotatedAll_claims {subs : List Fragment}
    (each : ∀ x ∈ subs, x.annotated.map Claimed.claim = x.facts?) :
    (annotatedAll subs).map (List.map Claimed.claim) = factsOf? subs := by
  induction subs with
  | nil => rfl
  | cons x rest ih =>
    have head := each x List.mem_cons_self
    have tail := ih fun y member => each y (List.mem_cons_of_mem x member)
    rw [annotatedAll, factsOf?, ← head, ← tail]
    cases x.annotated <;> cases annotatedAll rest <;> rfl

/-- The whole claims the facts that it has. -/
theorem annotated_claim (f : Fragment) : f.annotated.map Claimed.claim = f.facts? := by
  induction f with
  | leaf l =>
    rw [annotated, facts?]
    cases blame (.leaf l) (Facts.leaf l : Except Refusal (Facts Int64)) <;> rfl
  | wrap w x ih =>
    rw [annotated, facts?, ← ih]
    cases x.annotated with
    | error e => rfl
    | ok cx =>
      simp only [Except.map]
      cases blame (.wrap w x) (Facts.wrap w cx.claim) <;> rfl
  | pair op x y ihx ihy =>
    rw [annotated, facts?, ← ihx, ← ihy]
    cases x.annotated with
    | error e => rfl
    | ok cx =>
      cases y.annotated with
      | error e => rfl
      | ok cy =>
        simp only [Except.map]
        cases blame (.pair op x y) (Facts.pair op cx.claim cy.claim) <;> rfl
  | andor x y z ihx ihy ihz =>
    rw [annotated, facts?, ← ihx, ← ihy, ← ihz]
    cases x.annotated with
    | error e => rfl
    | ok cx =>
      cases y.annotated with
      | error e => rfl
      | ok cy =>
        cases z.annotated with
        | error e => rfl
        | ok cz =>
          simp only [Except.map]
          cases blame (.andor x y z) (Facts.andor cx.claim cy.claim cz.claim) <;> rfl
  | thresh k subs each =>
    rw [annotated, facts?, ← annotatedAll_claims each]
    cases annotatedAll subs with
    | error e => rfl
    | ok cs =>
      simp only [Except.map]
      cases blame (.thresh k subs) (Facts.threshold k (cs.map Claimed.claim)) <;> rfl

end Fragment

/-- The checked fragment with every part claiming the facts that it has. -/
def Checked.claimed (m : Checked) : Claimed :=
  match annotated : m.fragment.annotated with
  | .ok c => c
  | .error _ => by
    have claims := m.fragment.annotated_claim
    rw [annotated, m.typed] at claims
    cases claims

end LockScript
