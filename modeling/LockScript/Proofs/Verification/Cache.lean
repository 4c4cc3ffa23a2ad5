import LockScript.Verification.Cache

/-!
What may be relied upon in a cache.

A cache is lawful if what it gives for a key is the value that was inserted last for that key. This
leaves open what is forgotten and when. Some caches never find again what they have forgotten, until
it is inserted anew (`Cache.Forgetful`). A map of recent entries is lawful and forgetful.
-/

namespace LockScript

theorem mem_of_lookup_eq_some {α β : Type} [DecidableEq α] {pairs : List (α × β)} {key : α}
    {value : β} (found : pairs.lookup key = some value) : (key, value) ∈ pairs := by
  obtain ⟨before, after, whole, -⟩ := List.lookup_eq_some_iff.1 found
  rw [whole]
  exact List.mem_append_right before List.mem_cons_self

namespace Cache

variable {σ α β : Type} [Cache σ α β]

/-- How a cache came about, starting from an empty one, and what was inserted into it, the last
first. -/
inductive Made : σ → List (α × β) → Prop
  | new (limit : Nat) : Made (ofLimit limit) []
  | looked {c : σ} {inserted : List (α × β)} (made : Made c inserted) (key : α) :
    Made (lookup c key).2 inserted
  | inserted {c : σ} {inserted : List (α × β)} (made : Made c inserted) (key : α) (value : β) :
    Made (insert c key value) ((key, value) :: inserted)

/-- A lookup gives the value that was inserted last for the key, or nothing. -/
class Lawful (σ : Type) {α β : Type} [DecidableEq α] [Cache σ α β] : Prop where
  last {c : σ} {inserted : List (α × β)} (made : Made c inserted) {key : α} {value : β}
    (found : (lookup c key).1 = some value) : inserted.lookup key = some value

/-- Whatever is found was inserted. -/
theorem mem_of_lookup [DecidableEq α] [Lawful σ] {c : σ} {inserted : List (α × β)}
    (made : Made c inserted) {key : α} {value : β} (found : (lookup c key).1 = some value) :
    (key, value) ∈ inserted :=
  mem_of_lookup_eq_some (Lawful.last made found)

/-- Nothing is found for a key in a cache. -/
def Lacks (c : σ) (key : α) : Prop := (lookup c key).1 = none

/-- What is not found is not found later either, unless it is inserted. -/
class Forgetful (σ : Type) {α β : Type} [Cache σ α β] : Prop where
  looked {c : σ} {key : α} (lacks : Lacks c key) (other : α) : Lacks (lookup c other).2 key
  inserted {c : σ} {key other : α} (lacks : Lacks c key) (different : key ≠ other) (value : β) :
    Lacks (insert c other value) key

end Cache

namespace RecentMap

variable {α β : Type} [DecidableEq α] {m : RecentMap α β} {key other : α} {value : β} {e : α × β}

theorem mem_of_mem_touch (member : e ∈ (m.touch key).entries) : e ∈ m.entries := by
  unfold touch at member
  split at member
  · exact member
  · next value found =>
    rcases List.mem_cons.1 member with rfl | other
    · exact mem_of_lookup_eq_some found
    · exact (List.mem_filter.1 other).1

/-- An entry is the new one, or an old one of another key. -/
theorem mem_of_mem_insert (member : e ∈ (m.insert key value).entries) :
    e = (key, value) ∨ e.1 ≠ key ∧ e ∈ m.entries := by
  rcases List.mem_cons.1 (List.mem_of_mem_take member) with same | old
  · exact .inl same
  · rcases List.mem_filter.1 old with ⟨inside, different⟩
    exact .inr ⟨of_decide_eq_true different, inside⟩

theorem get?_eq_none_iff : m.get? key = none ↔ ∀ e ∈ m.entries, e.1 ≠ key := by
  rw [get?, List.lookup_eq_none_iff]
  simp only [bne_iff_ne, ne_comm]

/-- Every entry is what was inserted last for its key. -/
theorem lookup_of_mem {inserted : List (α × β)} (made : Cache.Made m inserted)
    (member : e ∈ m.entries) : inserted.lookup e.1 = some e.2 := by
  induction made with
  | new limit => cases member
  | looked made key ih => exact ih (mem_of_mem_touch member)
  | inserted made key value ih =>
    rcases mem_of_mem_insert member with rfl | ⟨different, old⟩
    · exact List.lookup_cons_self
    · rw [List.lookup_cons, beq_false_of_ne different]
      exact ih old

instance : Cache.Lawful (RecentMap α β) where
  last made _ _ found := lookup_of_mem made (mem_of_lookup_eq_some found)

instance : Cache.Forgetful (RecentMap α β) where
  looked lacks other :=
    get?_eq_none_iff.2 fun e member => get?_eq_none_iff.1 lacks e (mem_of_mem_touch member)
  inserted lacks different value := by
    refine get?_eq_none_iff.2 fun e member => ?_
    rcases mem_of_mem_insert member with rfl | ⟨-, old⟩
    · exact different.symm
    · exact get?_eq_none_iff.1 lacks e old

end RecentMap

end LockScript
