import LockScript.Proofs.Execution.Enforcement

/-!
What a run leaves.

The type of a fragment promises something about every run of its script that does not fail, whatever
is on the two stacks before: which elements are gone, where the value of the fragment is, and what a
true value is. `Correctness.Leaves` spells the promise out for each base. A K leaves a key for a
CHECKSIG that comes after it, and its promise is about the two together.
-/

namespace LockScript

open Machine

/-- The instructions after which the promise of a base is kept. -/
def Base.closing : Base → List Instruction
  | .K => [.op .checkSig]
  | _ => []

namespace Correctness

/-- A true value of a unit is the byte 1 and no other. -/
def Allows (c : Correctness) (v : Bytes) : Prop := c.unit = true → isTrue v = true → v = [1]

/-- What the main stack `before` has become in the end. A V leaves what its input does not take. A B
and a closed K put a value on top of that, and a W puts its value above or below the element that
was on top when it was started. -/
def Leaves (c : Correctness) (before after : Stack) : Prop :=
  match c.base with
  | .V => c.input.Takes before after
  | .B => ∃ v rest, after = v :: rest ∧ c.input.Takes before rest ∧ c.Allows v
  | .K => ∃ v rest, after = v :: rest ∧ c.input.Takes before rest ∧ c.Allows v
  | .W => ∃ x st v rest, before = x :: st ∧ (after = x :: v :: rest ∨ after = v :: x :: rest) ∧
      c.input.Takes st rest ∧ c.Allows v
  | .other _ => False

end Correctness

namespace Machine

variable {env : Environment} {st alt : Stack} {inside : List Branch} {t : State}

/-- A run through the words of a typed fragment that ends after CHECKSIG, for a K, keeps the promise
of the type and changes nothing else. -/
theorem leaves_of_run_words {f : Fragment} {facts : Facts Int64} (typed : f.facts? = .ok facts)
    (running : isRunning inside = true)
    (ran : run env (f.words ++ facts.type.corr.base.closing) ⟨st, alt, inside⟩ = some t) :
    ∃ main, t = ⟨main, alt, inside⟩ ∧ facts.type.corr.Leaves st main := by
  rcases simulated typed running ran with ⟨v, rest, main, evaluated, placed, ran⟩
  have taken := evaluated.takes typed
  have one (base : facts.type.corr.base ≠ .K) : facts.type.corr.Allows v :=
    fun unit set => evaluated.eq_one typed base unit set
  unfold Correctness.Leaves
  generalize facts.type.corr.base = base at *
  cases base with
  | V =>
    cases placed
    cases ran
    exact ⟨rest, rfl, taken⟩
  | B =>
    cases placed
    cases ran
    exact ⟨v :: rest, rfl, v, rest, rfl, taken, one nofun⟩
  | W =>
    cases ran
    rcases placed with ⟨d, below, rfl, order⟩
    rcases taken with ⟨x, above, below', rfl, same, taken⟩
    cases same
    exact ⟨main, rfl, _, above, v, below, rfl, order.symm, taken, one nofun⟩
  | K =>
    cases placed
    rcases exists_perform rfl running ran with ⟨main, alt', performed, ran⟩
    rcases perform_checkSig_iff.1 performed with ⟨key, sig, below, same, result⟩
    cases same
    cases result
    cases ran
    exact ⟨_, rfl, _, below, rfl, taken sig below rfl, fun _ set => flag_eq_one set⟩
  | other code => cases placed

/-- Types are sound for execution. If the instructions of a checked fragment do not fail on any two
stacks, the alternative stack is as it was. Once a K is closed, the main stack has become what the
type says, and this holds of the bytes that the instructions are written as, too. -/
theorem run_keeps_type (m : Checked) (running : isRunning inside = true) :
    (run env (m.fragment.instructions false) ⟨st, alt, inside⟩ = some t →
      t.alt = alt ∧ t.inside = inside) ∧
    (run env (m.fragment.instructions false ++ m.type.corr.base.closing) ⟨st, alt, inside⟩
        = some t →
      ∃ main, t = ⟨main, alt, inside⟩ ∧ m.type.corr.Leaves st main) ∧
    ∀ b, m.fragment.script = .ok b →
      runElements env
        (Script.elements (b ++ m.type.corr.base.closing.flatMap Instruction.bytes))
        ⟨st, alt, inside⟩ = some t →
      ∃ main, t = ⟨main, alt, inside⟩ ∧ m.type.corr.Leaves st main := by
  refine ⟨fun ran => ?_, fun ran => ?_, fun b written ran => ?_⟩
  · rw [run_instructions, ← List.append_nil m.fragment.words] at ran
    rcases simulated m.typed running ran with ⟨v, rest, main, -, -, ended⟩
    cases ended
    exact ⟨rfl, rfl⟩
  · rw [run_append, run_instructions, ← run_append] at ran
    exact leaves_of_run_words m.typed running ran
  · have readable : ∀ i ∈ m.type.corr.base.closing, i.Readable := by
      cases m.type.corr.base <;> simp [Base.closing]
    rw [runElements_script env m.typed written readable] at ran
    exact leaves_of_run_words m.typed running ran

/-- `and_v(v:older(3),pk(G))`, a K. -/
def matured : Checked where
  fragment := .pair .andV (.wrap .verify (.leaf (.older 3))) (.leaf (.pk (.point .generator)))
  facts := ⟨⟨⟨.K, .oneNonZero, false, true⟩, ⟨.unknown, true, true⟩⟩,
    ⟨.safe, 37, false, 2, some 2, none⟩⟩
  typed := by rfl

/-- `s:c:pk(G)`, a W. -/
def signedBelow : Checked where
  fragment := .wrap .swap (.wrap .check (.leaf (.pk (.point .generator))))
  facts := ⟨⟨⟨.W, .any, true, true⟩, ⟨.unique, true, true⟩⟩,
    ⟨.safe, 36, true, 2, some 2, some 2⟩⟩
  typed := by rfl

/-- The script of `signedBelow`. -/
def signedBelowScript : Bytes := 0x7C :: 0x21 :: Point.generator.bytes ++ [0xAC]

theorem run_keeps_type_matured :
    run toyEnvironment (matured.fragment.instructions false ++ [.op .checkSig])
        ⟨[[7], [5]], [[9]], []⟩ = some ⟨[[1], [5]], [[9]], []⟩ ∧
      matured.type.corr.Leaves [[7], [5]] [[1], [5]] ∧
      signedBelow.fragment.script = .ok signedBelowScript ∧
      runElements toyEnvironment (Script.elements signedBelowScript)
        ⟨[[4], [7], [5]], [[9]], []⟩ = some ⟨[[1], [4], [5]], [[9]], []⟩ ∧
      signedBelow.type.corr.Leaves [[4], [7], [5]] [[1], [4], [5]] := by
  have ran : run toyEnvironment (matured.fragment.instructions false ++ [.op .checkSig])
      ⟨[[7], [5]], [[9]], []⟩ = some ⟨[[1], [5]], [[9]], []⟩ := by
    decide +kernel
  have ran' : runElements toyEnvironment (Script.elements signedBelowScript)
      ⟨[[4], [7], [5]], [[9]], []⟩ = some ⟨[[1], [4], [5]], [[9]], []⟩ := by
    decide +kernel
  rcases (run_keeps_type matured rfl).2.1 ran with ⟨main, same, leaves⟩
  rcases (run_keeps_type signedBelow rfl).2.2 _ rfl ran' with ⟨main', same', leaves'⟩
  cases same
  cases same'
  exact ⟨ran, leaves, rfl, ran', leaves'⟩

end Machine

end LockScript
