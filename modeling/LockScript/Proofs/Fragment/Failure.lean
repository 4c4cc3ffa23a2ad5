import LockScript.Fragment.Build
import LockScript.Fragment.Kind
import LockScript.Proofs.Typing.Composition

/-!
What the readers of texts and scripts end in.

A reader ends in a result or in an error. An error is regular if it has a place within the input and
is about the input: it is of a known kind, and it is none that only a reader that has lost track could
report (`Error.Regular`). A check may also break off, but not as long as the operations of what is put
together are a word (`regular_located`). The readers see to that: every operation was read from some
part of the input.
-/

namespace LockScript

/-- What only a decoder that has lost track could report: parts that were to be on the stack and are
not, a number of results other than one, or facts that break an invariant. -/
def Cause.Internal : Cause → Prop
  | .broken _ => True
  | .script (.unexpected _ .part) => True
  | .script (.unexpected _ .thresholdChild) => True
  | .script (.fragmentCount _) => True
  | _ => False

/-- An error at an offset within an input of the given size. It is of a known kind, unless the input
is so long that four operations for each byte are no word, and it is not internal, unless an invariant
is broken. -/
structure Error.Regular (size : Nat) (e : Error) : Prop where
  place : ∃ offset, e.offset = some offset ∧ offset ≤ size
  kind : size < 0x2000000000000000 → ∃ kind, e.cause.kind? = some kind
  guarded : e.cause.Internal → ∃ v, e.cause = .broken v

/-- An error of a known kind that is not internal is regular. -/
theorem Error.Regular.at {size offset : Nat} {cause : Cause} {kind : ErrorKind}
    (inside : offset ≤ size) (known : cause.kind? = some kind) (plain : ¬ cause.Internal) :
    Error.Regular size ⟨cause, some offset⟩ :=
  ⟨⟨offset, rfl, inside⟩, fun _ => ⟨kind, known⟩, fun own => (plain own).elim⟩

/-- Ends in something that satisfies `P`, or in a regular error. -/
def Regular {α : Type} (size : Nat) (P : α → Prop) : Except Error α → Prop
  | .ok a => P a
  | .error e => e.Regular size

section Outcomes

variable {α β : Type} {P : α → Prop} {Q : β → Prop} {size offset : Nat}

theorem Regular.bind {made : Except Error α} {f : α → Except Error β} (regular : Regular size P made)
    (goesOn : ∀ a, P a → Regular size Q (f a)) : Regular size Q (made >>= f) := by
  cases made with
  | error e => exact regular
  | ok a => exact goesOn a regular

theorem Regular.map {made : Except Error α} {f : α → β} (regular : Regular size P made)
    (turns : ∀ a, P a → Q (f a)) : Regular size Q (made.map f) := by
  cases made with
  | error e => exact regular
  | ok a => exact turns a regular

theorem Regular.imp {P' : α → Prop} {made : Except Error α} (regular : Regular size P made)
    (implies : ∀ a, P a → P' a) : Regular size P' made := by
  cases made with
  | error e => exact regular
  | ok a => exact implies a regular

theorem Regular.known {made : Except Error α} (regular : Regular size P made) :
    Regular size (fun a => P a ∧ made = .ok a) made := by
  cases made with
  | error e => exact regular
  | ok a => exact ⟨regular, rfl⟩

theorem regular_textError (cause : TextCause) (inside : offset ≤ size) :
    Regular size P (textError cause offset) :=
  .at inside rfl id

/-- A check that has no place of its own is put down to a place within the input. It does not break
off if the input accounts for the operations. -/
theorem regular_located (limit : Int) (t : Composition) (inside : offset ≤ size)
    (ops : t.fragment.allOps ≤ 4 * size) :
    Regular size (fun m => m.fragment = t.fragment) (located offset (t.check limit)) := by
  rcases Int.lt_or_le limit t.fragment.depth with deep | shallow
  · rw [Composition.check_of_deep deep]
    exact .at inside rfl id
  · have result := Composition.check_of_shallow shallow
    generalize t.check limit = answer at result
    cases result with
    | mistyped unfit => exact .at inside rfl id
    | @broken c v fit below =>
      refine ⟨⟨offset, rfl, inside⟩, fun small => ?_, fun _ => ⟨v, rfl⟩⟩
      have fits : t.fragment.Fits := by
        rw [Fragment.Fits]
        omega
      exact absurd fits (Fragment.not_fits_of_violation below)
    | made fit same => exact same

end Outcomes

end LockScript
