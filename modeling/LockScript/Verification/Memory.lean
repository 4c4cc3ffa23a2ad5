import LockScript.Typing.Facts
import LockScript.Verification.Cache

/-!
What is remembered of the fragments met so far.
-/

namespace LockScript

/-- What was found for the fragments met most recently, by their canonical text. -/
abbrev RecentFacts := RecentMap Bytes (Facts Int64)

/-- A cache of what was found for fragments, by their canonical text; none if nothing is remembered. -/
abbrev Memory (σ : Type) := Option σ

namespace Memory

/-- The number of fragments remembered where no other is chosen. -/
def defaultLimit : Nat := 1000

/-- A memory for this many fragments, 0 standing for the default. -/
def ofLimit {σ : Type} [Cache σ Bytes (Facts Int64)] (limit : Nat) : Memory σ :=
  some (Cache.ofLimit (if limit = 0 then defaultLimit else limit))

/-- The number of fragments remembered. -/
def size (m : Memory RecentFacts) : Nat := m.elim 0 RecentMap.size

end Memory

end LockScript
