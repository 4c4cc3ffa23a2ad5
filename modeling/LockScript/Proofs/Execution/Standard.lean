import LockScript.Proofs.Execution.Simulation

/-!
Runs under the rules of standardness.

The machine leaves out rules that do no more than end runs early. To show that a stack satisfies a
script they have to be there, so here are those that are about more than size: the argument of a
conditional is a truth value as opcodes write it, a signature that is refused is empty, and so is
the element that CHECKMULTISIG takes without need. What runs under these rules runs without them
(`run_of_runStrictly`).

`Leads env ws st st'` says that instructions take one main stack to another inside any conditionals
that are run and leave everything else as it was. There is one rule for each thing that
instructions of fragments do.
-/

namespace LockScript.Machine

variable {env : Environment} {is ws vs : List Instruction} {s t : State}

/-! ## The rules -/

/-- Whether an opcode that is run keeps to the rules of standardness. -/
def isStandard (env : Environment) (main : Stack) : Opcode → Bool
  | .ifOp => main.head?.all fun v => v = flag (isTrue v)
  | .notIf => main.head?.all fun v => v = flag (isTrue v)
  | .checkSig => match main with
    | key :: sig :: _ => env.accepts key sig || sig = []
    | _ => true
  | .checkMultiSig => match popCounted main with
    | none => true
    | some (keys, below) => match popCounted below with
      | some (sigs, dummy :: _) =>
        dummy = [] && (inOrder env keys sigs || sigs.all fun sig => sig = [])
      | _ => true
  | _ => true

/-- One opcode that is no VERIFY form, under the rules. -/
def stepOpcodeStrictly (env : Environment) (s : State) (o : Opcode) : Option State :=
  if isRunning s.inside && !isStandard env s.main o then none else stepOpcode env s o

/-- One instruction under the rules. -/
def stepStrictly (env : Environment) (s : State) : Instruction → Option State
  | .op o => o.simpler.foldlM (stepOpcodeStrictly env) s
  | i => step env s i

/-- One instruction after the other, under the rules. -/
def runStrictly (env : Environment) (is : List Instruction) (s : State) : Option State :=
  is.foldlM (stepStrictly env) s

theorem runStrictly_cons (env : Environment) (i : Instruction) (is : List Instruction) (s : State) :
    runStrictly env (i :: is) s = (stepStrictly env s i).bind (runStrictly env is) := rfl

theorem runStrictly_append (env : Environment) (is js : List Instruction) (s : State) :
    runStrictly env (is ++ js) s = (runStrictly env is s).bind (runStrictly env js) :=
  List.foldlM_append

/-- A run under the rules sees the words of the instructions only. -/
theorem runStrictly_flatMap_simpler (env : Environment) (is : List Instruction) (s : State) :
    runStrictly env (is.flatMap Instruction.simpler) s = runStrictly env is s := by
  have single (i : Instruction) (s : State) :
      runStrictly env i.simpler s = stepStrictly env s i := by
    cases i with
    | op o => cases o <;> simp [Instruction.simpler, Opcode.simpler, runStrictly, stepStrictly]
    | _ => simp [Instruction.simpler, runStrictly]
  induction is generalizing s with
  | nil => rfl
  | cons i is ih =>
    rw [List.flatMap_cons, runStrictly_append, single, runStrictly_cons]
    exact congrArg _ (funext ih)

theorem runStrictly_instructions (env : Environment) (f : Fragment) (s : State) :
    runStrictly env (f.instructions false) s = runStrictly env f.words s :=
  (runStrictly_flatMap_simpler env (f.instructions false) s).symm

/-! ## Runs without the rules -/

theorem stepOpcode_of_strictly {o : Opcode} (stepped : stepOpcodeStrictly env s o = some t) :
    stepOpcode env s o = some t := by
  unfold stepOpcodeStrictly at stepped
  split at stepped
  · cases stepped
  · exact stepped

/-- Steps that are each taken by others as well are taken by them together. -/
theorem foldlM_eq_some_of_imp {α : Type} {strict lax : State → α → Option State}
    (imp : ∀ {s i t}, strict s i = some t → lax s i = some t) {xs : List α}
    (ran : xs.foldlM strict s = some t) : xs.foldlM lax s = some t := by
  induction xs generalizing s with
  | nil => exact ran
  | cons x xs ih =>
    obtain ⟨u, first, others⟩ := Option.bind_eq_some_iff.1 ran
    exact Option.bind_eq_some_iff.2 ⟨u, imp first, ih others⟩

theorem step_of_strictly {i : Instruction} (stepped : stepStrictly env s i = some t) :
    step env s i = some t := by
  cases i with
  | op o => exact foldlM_eq_some_of_imp stepOpcode_of_strictly stepped
  | _ => exact stepped

/-- A run under the rules is a run of the machine. -/
theorem run_of_runStrictly (ran : runStrictly env is s = some t) : run env is s = some t :=
  foldlM_eq_some_of_imp step_of_strictly ran

/-! ## Branches that are not run -/

theorem stepStrictly_idle (idle : isRunning s.inside = false) (i : Instruction) :
    stepStrictly env s i = step env s i := by
  have same (o : Opcode) : stepOpcodeStrictly env s o = stepOpcode env s o := by
    simp [stepOpcodeStrictly, idle]
  cases i with
  | op o =>
    cases o <;> simp [stepStrictly, step, Opcode.simpler, same, stepOpcode, idle]
  | _ => rfl

/-- Under the rules, too, closed instructions in a branch that is not run change nothing. -/
theorem runStrictly_idle (closed : Closed ws) {st alt : Stack} {inside : List Branch}
    (idle : isRunning inside = false) :
    runStrictly env ws ⟨st, alt, inside⟩ = some ⟨st, alt, inside⟩ :=
  closed.foldlM_idle (fun _ i idle => stepStrictly_idle idle i) idle

/-! ## From stack to stack -/

/-- The instructions take one main stack to another, whatever the other stack and the conditionals
around them, if they are run at all. -/
def Leads (env : Environment) (ws : List Instruction) (st st' : Stack) : Prop :=
  ∀ (alt : Stack) (inside : List Branch), isRunning inside = true →
    runStrictly env ws ⟨st, alt, inside⟩ = some ⟨st', alt, inside⟩

/-- The conditionals, with the truth value that enters their first branch. -/
inductive Enters : Opcode → Bool → Prop
  | ifOp : Enters .ifOp true
  | notIf : Enters .notIf false

theorem stepStrictly_enter {o : Opcode} {wanted : Bool} (enters : Enters o wanted) (b : Bool)
    (st alt : Stack) {inside : List Branch} (running : isRunning inside = true) :
    stepStrictly env ⟨flag b :: st, alt, inside⟩ (.op o)
      = some ⟨st, alt, (if b = wanted then .taken else .untaken) :: inside⟩ := by
  cases enters <;>
    simp [stepStrictly, Opcode.simpler, stepOpcodeStrictly, isStandard, stepOpcode, enter, running]

namespace Leads

variable {st mid st' : Stack} {o : Opcode} {wanted : Bool}

theorem nil : Leads env [] st st := fun _ _ _ => rfl

theorem append (first : Leads env ws st mid) (second : Leads env vs mid st') :
    Leads env (ws ++ vs) st st' := by
  intro alt inside running
  rw [runStrictly_append, first alt inside running]
  exact second alt inside running

theorem cons {w : Instruction} (first : Leads env [w] st mid) (others : Leads env ws mid st') :
    Leads env (w :: ws) st st' :=
  first.append others

theorem push {i : Instruction} {d : Bytes} (pushed : pushed? i = some d) :
    Leads env [i] st (d :: st) := by
  intro alt inside running
  have strictly : stepStrictly env ⟨st, alt, inside⟩ i = step env ⟨st, alt, inside⟩ i := by
    cases i with
    | op o => cases pushed
    | _ => rfl
  rw [runStrictly_cons, strictly, step_push env _ pushed, if_pos running]
  rfl

theorem op (plain : isPlain o = true) (standard : isStandard env st o = true)
    (performed : ∀ alt, perform env o st alt = some (st', alt)) : Leads env [.op o] st st' := by
  intro alt inside running
  have strictly : stepStrictly env ⟨st, alt, inside⟩ (.op o)
      = stepOpcodeStrictly env ⟨st, alt, inside⟩ o := by
    cases o <;> first
      | exact absurd plain (by decide)
      | simp [stepStrictly, Opcode.simpler]
  have stepped : stepOpcode env ⟨st, alt, inside⟩ o = step env ⟨st, alt, inside⟩ (.op o) := by
    cases o <;> first
      | exact absurd plain (by decide)
      | simp [step, Opcode.simpler]
  rw [runStrictly_cons, strictly, stepOpcodeStrictly, standard, stepped, step_plain plain,
    if_pos running, performed]
  simp [runStrictly]

theorem equal {d e : Bytes} : Leads env [.op .equal] (d :: e :: st) (flag (d = e) :: st) :=
  .op rfl rfl fun _ => perform_equal_iff.2 ⟨d, e, st, rfl, rfl⟩

theorem verify {v : Bytes} (set : isTrue v = true) : Leads env [.op .verify] (v :: st) st :=
  .op rfl rfl fun _ => perform_verify_iff.2 ⟨v, st, rfl, set, rfl⟩

theorem equalVerify {d : Bytes} : Leads env [.op .equal, .op .verify] (d :: d :: st) st :=
  equal.cons (verify (by simp))

theorem dup {d : Bytes} : Leads env [.op .dup] (d :: st) (d :: d :: st) :=
  .op rfl rfl fun _ => perform_dup_iff.2 ⟨d, st, rfl, rfl⟩

theorem ifDup {d : Bytes} :
    Leads env [.op .ifDup] (d :: st) (if isTrue d then d :: d :: st else d :: st) :=
  .op rfl rfl fun _ => perform_ifDup_iff.2 ⟨d, st, rfl, rfl⟩

theorem swap {d e : Bytes} : Leads env [.op .swap] (d :: e :: st) (e :: d :: st) :=
  .op rfl rfl fun _ => perform_swap_iff.2 ⟨d, e, st, rfl, rfl⟩

theorem size {d : Bytes} :
    Leads env [.op .size] (d :: st) (ScriptNumber.encode d.length :: d :: st) :=
  .op rfl rfl fun _ => perform_size_iff.2 ⟨d, st, rfl, rfl⟩

theorem zeroNotEqual {d : Bytes} {n : Int} (read : operand? d = some n) :
    Leads env [.op .zeroNotEqual] (d :: st) (flag (n ≠ 0) :: st) :=
  .op rfl rfl fun _ => perform_zeroNotEqual_iff.2 ⟨d, st, n, rfl, read, rfl⟩

theorem hash {f : HashFunction} {d : Bytes} :
    Leads env [.op f.opcode] (d :: st) ((env.digest f d).bytes :: st) :=
  .op (by cases f <;> rfl) (by cases f <;> rfl) fun _ => perform_hash_iff.2 ⟨d, st, rfl, rfl⟩

theorem checkSig {key sig : Bytes} (checked : env.accepts key sig = true ∨ sig = []) :
    Leads env [.op .checkSig] (key :: sig :: st) (flag (env.accepts key sig) :: st) :=
  .op rfl (by simpa [isStandard] using checked) fun _ =>
    perform_checkSig_iff.2 ⟨key, sig, st, rfl, rfl⟩

/-- An element is put aside and taken back. -/
theorem aside {d : Bytes} (inner : Leads env ws st st') :
    Leads env (.op .toAltStack :: (ws ++ [.op .fromAltStack])) (d :: st) (d :: st') := by
  intro alt inside running
  have away : stepStrictly env ⟨d :: st, alt, inside⟩ (.op .toAltStack)
      = some ⟨st, d :: alt, inside⟩ := by
    simp [stepStrictly, Opcode.simpler, stepOpcodeStrictly, isStandard, stepOpcode, perform,
      running]
  have back : stepStrictly env ⟨st', d :: alt, inside⟩ (.op .fromAltStack)
      = some ⟨d :: st', alt, inside⟩ := by
    simp [stepStrictly, Opcode.simpler, stepOpcodeStrictly, isStandard, stepOpcode, perform,
      running]
  rw [runStrictly_cons, away, Option.bind_some, runStrictly_append, inner _ _ running,
    Option.bind_some, runStrictly_cons, back]
  rfl

/-- A branch is run. -/
theorem taken (enters : Enters o wanted) (inner : Leads env ws st st') :
    Leads env (.op o :: (ws ++ [.op .endIf])) (flag wanted :: st) st' := by
  intro alt inside running
  rw [runStrictly_cons, stepStrictly_enter enters wanted st alt running, if_pos rfl,
    Option.bind_some, runStrictly_append, inner _ _ rfl]
  rfl

/-- A branch is not run. -/
theorem untaken (enters : Enters o wanted) (closed : Closed ws) :
    Leads env (.op o :: (ws ++ [.op .endIf])) (flag (!wanted) :: st) st := by
  intro alt inside running
  rw [runStrictly_cons, stepStrictly_enter enters (!wanted) st alt running,
    if_neg (Bool.not_ne_self wanted), Option.bind_some, runStrictly_append,
    runStrictly_idle closed rfl]
  rfl

/-- The first of two branches is run. -/
theorem first (enters : Enters o wanted) (inner : Leads env ws st st') (closed : Closed vs) :
    Leads env (.op o :: (ws ++ .op .elseOp :: (vs ++ [.op .endIf]))) (flag wanted :: st) st' := by
  intro alt inside running
  have other : stepStrictly env ⟨st', alt, .taken :: inside⟩ (.op .elseOp)
      = some ⟨st', alt, .untaken :: inside⟩ := rfl
  rw [runStrictly_cons, stepStrictly_enter enters wanted st alt running, if_pos rfl,
    Option.bind_some, runStrictly_append, inner _ _ rfl, Option.bind_some, runStrictly_cons, other,
    Option.bind_some, runStrictly_append, runStrictly_idle closed rfl]
  rfl

/-- The second of two branches is run. -/
theorem second (enters : Enters o wanted) (closed : Closed ws) (inner : Leads env vs st st') :
    Leads env (.op o :: (ws ++ .op .elseOp :: (vs ++ [.op .endIf]))) (flag (!wanted) :: st)
      st' := by
  intro alt inside running
  have other : stepStrictly env ⟨st, alt, .untaken :: inside⟩ (.op .elseOp)
      = some ⟨st, alt, .taken :: inside⟩ := rfl
  rw [runStrictly_cons, stepStrictly_enter enters (!wanted) st alt running,
    if_neg (Bool.not_ne_self wanted), Option.bind_some, runStrictly_append,
    runStrictly_idle closed rfl, Option.bind_some, runStrictly_cons, other, Option.bind_some,
    runStrictly_append, inner _ _ rfl]
  rfl

end Leads

end LockScript.Machine
