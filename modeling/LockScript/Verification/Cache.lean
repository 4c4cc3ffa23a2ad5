/-!
Caches: maps that may forget what they were given.

The one that is used has a bounded number of entries and forgets what was not used for longest.
-/

namespace LockScript

/-- A map that may forget entries. To look something up may change what is forgotten next. -/
class Cache (σ : Type) (α β : outParam Type) where
  /-- A map without entries, with a limit for their number. -/
  ofLimit : Nat → σ
  /-- What is found for a key, and the map afterwards. -/
  lookup : σ → α → Option β × σ
  /-- The map in which a key has been given a value. -/
  insert : σ → α → β → σ

/-- A map of at most `limit` entries, the most recently used first. -/
structure RecentMap (α β : Type) where
  limit : Nat
  entries : List (α × β)

namespace RecentMap

variable {α β : Type} [DecidableEq α]

/-- A map without entries. -/
def empty (limit : Nat) : RecentMap α β := ⟨limit, []⟩

/-- The number of entries. -/
def size (m : RecentMap α β) : Nat := m.entries.length

/-- The value of a key. -/
def get? (m : RecentMap α β) (key : α) : Option β := m.entries.lookup key

/-- The entries of all other keys. -/
def others (m : RecentMap α β) (key : α) : List (α × β) := m.entries.filter (·.1 ≠ key)

/-- Makes the entry of a key, if there is one, the most recent. -/
def touch (m : RecentMap α β) (key : α) : RecentMap α β :=
  match m.get? key with
  | none => m
  | some value => { m with entries := (key, value) :: m.others key }

/-- Gives a key a value and makes its entry the most recent. If there are too many entries then, the
least recent is dropped. -/
def insert (m : RecentMap α β) (key : α) (value : β) : RecentMap α β :=
  { m with entries := ((key, value) :: m.others key).take m.limit }

instance : Cache (RecentMap α β) α β where
  ofLimit := empty
  lookup m key := (m.get? key, m.touch key)
  insert := insert

end RecentMap

end LockScript
