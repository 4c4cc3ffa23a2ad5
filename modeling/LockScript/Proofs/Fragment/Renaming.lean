import LockScript.Proofs.Typing.Inversion

/-!
Fragments with other keys.

Which keys there are matters neither for the facts of a fragment (`Fragment.facts?_renamed_iff`) nor
for its depth. The keys of a renamed fragment are the renamed keys, in the same order.
-/

namespace LockScript

/-- Members that are related one by one are so by any relation that follows for members. -/
theorem forall₂_of_mem {α β : Type} {l : List α} {m : List β} {r s : α → β → Prop}
    (holds : List.Forall₂ r l m) (each : ∀ a ∈ l, ∀ b ∈ m, r a b → s a b) :
    List.Forall₂ s l m := by
  obtain ⟨lengths, pairs⟩ := List.forall₂_iff_zip.1 holds
  refine List.forall₂_iff_zip.2 ⟨lengths, fun inside => ?_⟩
  obtain ⟨left, right⟩ := List.of_mem_zip inside
  exact each _ left _ right (pairs inside)

/-- The leaf with every key renamed. -/
def Leaf.renamed (rename : Key → Key) : Leaf → Leaf
  | .pk key => .pk (rename key)
  | .multi k keys => .multi k (keys.map rename)
  | l => l

namespace Fragment

mutual

/-- The fragment with every key renamed. -/
@[simp] def renamed (rename : Key → Key) : Fragment → Fragment
  | .leaf l => .leaf (l.renamed rename)
  | .wrap w x => .wrap w (x.renamed rename)
  | .pair op x y => .pair op (x.renamed rename) (y.renamed rename)
  | .andor x y z => .andor (x.renamed rename) (y.renamed rename) (z.renamed rename)
  | .thresh k subs => .thresh k (renamedAll rename subs)

/-- The fragments with every key renamed. -/
@[simp] def renamedAll (rename : Key → Key) : List Fragment → List Fragment
  | [] => []
  | x :: rest => x.renamed rename :: renamedAll rename rest

end

variable {rename rename' : Key → Key} {f : Fragment}

theorem renamedAll_eq_map (subs : List Fragment) :
    renamedAll rename subs = subs.map (renamed rename) := by
  induction subs with
  | nil => rfl
  | cons x rest ih => rw [renamedAll, ih, List.map_cons]

theorem renamed_thresh (k : Int) (subs : List Fragment) :
    (thresh k subs).renamed rename = .thresh k (subs.map (renamed rename)) := by
  rw [renamed, renamedAll_eq_map]

/-! ## Laws of renaming -/

theorem renamed_id (f : Fragment) : f.renamed (fun key => key) = f := by
  induction f with
  | leaf l => cases l <;> simp [renamed, Leaf.renamed]
  | wrap w x ih => rw [renamed, ih]
  | pair op x y ihx ihy => rw [renamed, ihx, ihy]
  | andor x y z ihx ihy ihz => rw [renamed, ihx, ihy, ihz]
  | thresh k subs ih => rw [renamed_thresh, List.map_congr_left ih, List.map_id']

theorem renamed_renamed (f : Fragment) :
    (f.renamed rename).renamed rename' = f.renamed (fun key => rename' (rename key)) := by
  induction f with
  | leaf l => cases l <;> simp [renamed, Leaf.renamed]
  | wrap w x ih => rw [renamed, renamed, renamed, ih]
  | pair op x y ihx ihy => rw [renamed, renamed, renamed, ihx, ihy]
  | andor x y z ihx ihy ihz => rw [renamed, renamed, renamed, ihx, ihy, ihz]
  | thresh k subs ih =>
    rw [renamed_thresh, renamed_thresh, renamed_thresh, List.map_map]
    exact congrArg (thresh k) (List.map_congr_left ih)

/-- Only what becomes of its own keys matters for a fragment. -/
theorem renamed_congr (same : ∀ key ∈ f.keys, rename key = rename' key) :
    f.renamed rename = f.renamed rename' := by
  induction f with
  | leaf l =>
    cases l with
    | pk key => rw [renamed, renamed, Leaf.renamed, Leaf.renamed, same key List.mem_cons_self]
    | multi k keys =>
      exact congrArg (fun keys => leaf (.multi k keys)) (List.map_congr_left same)
    | _ => rfl
  | wrap w x ih => rw [renamed, renamed, ih same]
  | pair op x y ihx ihy =>
    obtain ⟨first, second⟩ := List.forall_mem_append.1 same
    rw [renamed, renamed, ihx first, ihy second]
  | andor x y z ihx ihy ihz =>
    obtain ⟨others, third⟩ := List.forall_mem_append.1 same
    obtain ⟨first, second⟩ := List.forall_mem_append.1 others
    rw [renamed, renamed, ihx first, ihy second, ihz third]
  | thresh k subs ih =>
    rw [keys, keysOf_eq_flatMap] at same
    rw [renamed_thresh, renamed_thresh]
    refine congrArg (thresh k) (List.map_congr_left fun x member => ih x member ?_)
    intro key inside
    exact same key (List.mem_flatMap.2 ⟨x, member, inside⟩)

/-! ## What renaming keeps -/

theorem keys_renamed (f : Fragment) : (f.renamed rename).keys = f.keys.map rename := by
  induction f with
  | leaf l => cases l <;> rfl
  | wrap w x ih => exact ih
  | pair op x y ihx ihy => rw [renamed, keys, keys, ihx, ihy, List.map_append]
  | andor x y z ihx ihy ihz =>
    rw [renamed, keys, keys, ihx, ihy, ihz, List.map_append, List.map_append]
  | thresh k subs ih =>
    rw [renamed_thresh, keys, keys, keysOf_eq_flatMap, keysOf_eq_flatMap, List.flatMap_map,
      List.map_flatMap]
    exact List.flatMap_congr ih

theorem depth_renamed (f : Fragment) : (f.renamed rename).depth = f.depth := by
  induction f with
  | leaf l => rfl
  | wrap w x ih => rw [renamed, depth, depth, ih]
  | pair op x y ihx ihy => rw [renamed, depth, depth, ihx, ihy]
  | andor x y z ihx ihy ihz => rw [renamed, depth, depth, ihx, ihy, ihz]
  | thresh k subs ih =>
    rw [renamed, depth, depth]
    induction subs with
    | nil => rfl
    | cons x rest tail =>
      obtain ⟨head, others⟩ := List.forall_mem_cons.1 ih
      have deeper := tail others
      rw [renamedAll, maxDepth, maxDepth, head]
      omega

theorem forall₂_renamed_iff {subs : List Fragment} {fs : List (Facts Int64)}
    (each : ∀ x ∈ subs, ∀ facts : Facts Int64,
      (x.renamed rename).facts? = .ok facts ↔ x.facts? = .ok facts) :
    List.Forall₂ (fun x fx => x.facts? = .ok fx) (subs.map (renamed rename)) fs ↔
      List.Forall₂ (fun x fx => x.facts? = .ok fx) subs fs := by
  rw [List.forall₂_map_left_iff]
  constructor
  · intro holds
    exact forall₂_of_mem holds fun x member facts _ => (each x member facts).1
  · intro holds
    exact forall₂_of_mem holds fun x member facts _ => (each x member facts).2

/-- What keys there are has no bearing on the facts. -/
theorem facts?_renamed_iff {facts : Facts Int64} :
    (f.renamed rename).facts? = .ok facts ↔ f.facts? = .ok facts := by
  induction f generalizing facts with
  | leaf l =>
    rw [renamed, facts?_leaf_iff, facts?_leaf_iff]
    cases l <;> simp [Leaf.renamed, Facts.checkLeaf, Correctness.ofLeaf, Malleability.ofLeaf,
      Cost.ofLeaf]
  | wrap w x ih => simp only [renamed, facts?_wrap_iff, ih]
  | pair op x y ihx ihy => simp only [renamed, facts?_pair_iff, ihx, ihy]
  | andor x y z ihx ihy ihz => simp only [renamed, facts?_andor_iff, ihx, ihy, ihz]
  | thresh k subs ih =>
    simp only [renamed_thresh, facts?_thresh_iff,
      forall₂_renamed_iff fun x member facts => ih x member]

end Fragment

/-- The checked fragment with every key renamed: it has the same facts. -/
def Checked.renamed (rename : Key → Key) (m : Checked) : Checked where
  fragment := m.fragment.renamed rename
  facts := m.facts
  typed := Fragment.facts?_renamed_iff.2 m.typed

end LockScript
