import LockScript.Proofs.Execution.Evaluation

/-!
Runs of scripts of fragments.

Every run through the words of a typed fragment comes to a value of the fragment, puts it where the
base says, and leaves the other stack and the conditionals as they were (`simulated`). Words inside
a branch that is not run do nothing at all (`run_words_idle`).
-/

namespace LockScript.Machine

variable {env : Environment} {st alt : Stack} {inside : List Branch} {is : List Instruction}
  {s t : State}

/-! ## Inverting one opcode -/

section Opcodes

variable {main : Stack} {r : Stack × Stack}

theorem perform_verify_iff :
    perform env .verify main alt = some r ↔
      ∃ v st, main = v :: st ∧ isTrue v = true ∧ r = (st, alt) := by
  unfold perform
  cases main with
  | nil => simp
  | cons v st => simp [@eq_comm _ r]

theorem perform_toAltStack_iff :
    perform env .toAltStack main alt = some r ↔ ∃ v st, main = v :: st ∧ r = (st, v :: alt) := by
  unfold perform
  cases main with
  | nil => simp
  | cons v st => simp [@eq_comm _ r]

theorem perform_fromAltStack_cons {v : Bytes} :
    perform env .fromAltStack main (v :: alt) = some r ↔ r = (v :: main, alt) := by
  unfold perform
  simp [@eq_comm _ r]

theorem perform_ifDup_iff :
    perform env .ifDup main alt = some r ↔
      ∃ v st, main = v :: st ∧ r = (if isTrue v then v :: v :: st else v :: st, alt) := by
  unfold perform
  cases main with
  | nil => simp
  | cons v st => simp [@eq_comm _ r]

theorem perform_dup_iff :
    perform env .dup main alt = some r ↔ ∃ v st, main = v :: st ∧ r = (v :: v :: st, alt) := by
  unfold perform
  cases main with
  | nil => simp
  | cons v st => simp [@eq_comm _ r]

theorem perform_swap_iff :
    perform env .swap main alt = some r ↔
      ∃ v w st, main = v :: w :: st ∧ r = (w :: v :: st, alt) := by
  unfold perform
  rcases main with _ | ⟨v, _ | ⟨w, st⟩⟩ <;> simp [@eq_comm _ r]

theorem perform_size_iff :
    perform env .size main alt = some r ↔
      ∃ v st, main = v :: st ∧ r = (ScriptNumber.encode v.length :: v :: st, alt) := by
  unfold perform
  cases main with
  | nil => simp
  | cons v st => simp [@eq_comm _ r]

theorem perform_equal_iff :
    perform env .equal main alt = some r ↔
      ∃ v w st, main = v :: w :: st ∧ r = (flag (v = w) :: st, alt) := by
  unfold perform
  rcases main with _ | ⟨v, _ | ⟨w, st⟩⟩ <;> simp [@eq_comm _ r]

theorem perform_zeroNotEqual_iff :
    perform env .zeroNotEqual main alt = some r ↔
      ∃ v st n, main = v :: st ∧ operand? v = some n ∧ r = (flag (n ≠ 0) :: st, alt) := by
  unfold perform
  cases main with
  | nil => simp
  | cons v st => simp [@eq_comm _ r]

theorem perform_hash_iff {f : HashFunction} :
    perform env f.opcode main alt = some r ↔
      ∃ v st, main = v :: st ∧ r = ((env.digest f v).bytes :: st, alt) := by
  unfold perform
  cases f <;> cases main <;> simp [HashFunction.opcode, @eq_comm _ r]

theorem perform_checkSig_iff :
    perform env .checkSig main alt = some r ↔
      ∃ key sig st, main = key :: sig :: st ∧ r = (flag (env.accepts key sig) :: st, alt) := by
  unfold perform
  rcases main with _ | ⟨v, _ | ⟨w, st⟩⟩ <;> simp [@eq_comm _ r]

end Opcodes

/-! ## Numbers that a script pushes -/

theorem number?_encode {size n : Nat} {k : Int}
    (read : number? size (ScriptNumber.encode n) = some k) : k = n := by
  unfold number? at read
  split at read
  · rw [← Option.some.inj read, ScriptNumber.decode_encode]
  · cases read

theorem checkLock_encode {passes : Nat → Bool} {n : Nat} {r : Stack}
    (checked : checkLock passes (ScriptNumber.encode n :: st) = some r) :
    passes n = true ∧ r = ScriptNumber.encode n :: st := by
  rw [checkLock] at checked
  split at checked
  · cases checked
  · next k read =>
    obtain rfl := number?_encode read
    split at checked
    · next passed =>
      rw [Int.toNat_natCast] at passed
      exact ⟨passed.2, (Option.some.inj checked).symm⟩
    · cases checked

theorem popCounted_encode {n : Nat} {xs : List Bytes} {below : Stack}
    (popped : popCounted (ScriptNumber.encode n :: st) = some (xs, below)) :
    xs.length = n ∧ st = xs ++ below := by
  rw [popCounted] at popped
  split at popped
  · cases popped
  · next k read =>
    obtain rfl := number?_encode read
    split at popped
    · next range =>
      cases popped
      rw [Int.toNat_natCast]
      exact ⟨List.length_take_of_le (by omega), (List.take_append_drop n st).symm⟩
    · cases popped

/-- Keys and signatures under their numbers. -/
theorem checkMultiSig_encode {n k : Nat} {keys : List Bytes} {r : Stack} (size : keys.length = n)
    (checked : checkMultiSig env
      (ScriptNumber.encode n :: (keys ++ ScriptNumber.encode k :: st)) = some r) :
    ∃ sigs dummy rest, sigs.length = k ∧ st = sigs ++ dummy :: rest ∧
      r = flag (inOrder env keys sigs) :: rest := by
  unfold checkMultiSig at checked
  split at checked
  · cases checked
  · next keys' below popped =>
    obtain ⟨size', same⟩ := popCounted_encode popped
    obtain ⟨rfl, rfl⟩ := List.append_inj same (by omega)
    split at checked
    · cases checked
    · next sigs rest popped' =>
      obtain ⟨enough, rfl⟩ := popCounted_encode popped'
      split at checked
      · split at checked
        · cases checked
        · next dummy rest =>
          exact ⟨sigs, dummy, rest, enough, rfl, (Option.some.inj checked).symm⟩
      · cases checked

/-! ## Runs that begin with an opcode -/

/-- Opcodes that act on the stacks, other than by a conditional or a VERIFY form. -/
def isPlain : Opcode → Bool
  | .ifOp => false
  | .notIf => false
  | .elseOp => false
  | .endIf => false
  | .equalVerify => false
  | .checkSigVerify => false
  | .checkMultiSigVerify => false
  | _ => true

theorem step_plain {o : Opcode} (plain : isPlain o = true) :
    step env s (.op o) = if isRunning s.inside then
      (perform env o s.main s.alt).map fun (main, alt) => ⟨main, alt, s.inside⟩ else some s := by
  cases o <;> first
    | exact absurd plain (by decide)
    | simp [step, Opcode.simpler, stepOpcode]

theorem exists_perform {o : Opcode} (plain : isPlain o = true) (running : isRunning inside = true)
    (ran : run env (.op o :: is) ⟨st, alt, inside⟩ = some t) :
    ∃ main alt', perform env o st alt = some (main, alt') ∧
      run env is ⟨main, alt', inside⟩ = some t := by
  rw [run_cons, step_plain plain, if_pos running] at ran
  obtain ⟨u, stepped, ran⟩ := Option.bind_eq_some_iff.1 ran
  obtain ⟨⟨main, alt'⟩, performed, rfl⟩ := Option.map_eq_some_iff.1 stepped
  exact ⟨main, alt', performed, ran⟩

theorem run_push {i : Instruction} {d : Bytes} (pushed : pushed? i = some d)
    (running : isRunning inside = true) :
    run env (i :: is) ⟨st, alt, inside⟩ = run env is ⟨d :: st, alt, inside⟩ := by
  rw [run_cons, step_push env _ pushed, if_pos running]
  rfl

theorem step_ifOp : step env s (.op .ifOp) = enter true s := by
  simp [step, Opcode.simpler, stepOpcode]

theorem step_notIf : step env s (.op .notIf) = enter false s := by
  simp [step, Opcode.simpler, stepOpcode]

theorem exists_enter {o : Opcode} {wanted : Bool}
    (enters : step env ⟨st, alt, inside⟩ (.op o) = enter wanted ⟨st, alt, inside⟩)
    (running : isRunning inside = true)
    (ran : run env (.op o :: is) ⟨st, alt, inside⟩ = some t) :
    ∃ d below, st = d :: below ∧
      (isTrue d = wanted ∧ run env is ⟨below, alt, .taken :: inside⟩ = some t ∨
        isTrue d = !wanted ∧ run env is ⟨below, alt, .untaken :: inside⟩ = some t) := by
  rw [run_cons, enters, enter, if_pos running] at ran
  cases st with
  | nil => cases ran
  | cons d below =>
    refine ⟨d, below, rfl, ?_⟩
    rw [Option.bind_some] at ran
    by_cases chosen : isTrue d = wanted
    · rw [if_pos chosen] at ran
      exact .inl ⟨chosen, ran⟩
    · rw [if_neg chosen] at ran
      exact .inr ⟨Bool.eq_not.2 chosen, ran⟩

theorem run_else_taken :
    run env (.op .elseOp :: is) ⟨st, alt, .taken :: inside⟩
      = run env is ⟨st, alt, .untaken :: inside⟩ := rfl

theorem run_else_untaken :
    run env (.op .elseOp :: is) ⟨st, alt, .untaken :: inside⟩
      = run env is ⟨st, alt, .taken :: inside⟩ := rfl

theorem run_endIf {b : Branch} :
    run env (.op .endIf :: is) ⟨st, alt, b :: inside⟩ = run env is ⟨st, alt, inside⟩ := rfl

/-! ## Branches that are not run -/

theorem step_plain_idle {o : Opcode} (plain : isPlain o = true)
    (idle : isRunning s.inside = false) : step env s (.op o) = some s := by
  rw [step_plain plain, idle]
  rfl

theorem step_enter_idle {o : Opcode} (conditional : o = .ifOp ∨ o = .notIf)
    (idle : isRunning inside = false) :
    step env ⟨st, alt, inside⟩ (.op o) = some ⟨st, alt, .skipped :: inside⟩ := by
  rcases conditional with rfl | rfl
  · rw [step_ifOp, enter, if_neg (by simp [idle])]
  · rw [step_notIf, enter, if_neg (by simp [idle])]

theorem step_else_skipped :
    step env ⟨st, alt, .skipped :: inside⟩ (.op .elseOp) = some ⟨st, alt, .skipped :: inside⟩ := rfl

/-- Instructions in which every conditional is closed. -/
inductive Closed : List Instruction → Prop
  | nil : Closed []
  | word {w : Instruction} (plain : ∀ o, w = .op o → isPlain o = true) : Closed [w]
  | append {ws vs : List Instruction} : Closed ws → Closed vs → Closed (ws ++ vs)
  | branch {o : Opcode} (conditional : o = .ifOp ∨ o = .notIf) {ws : List Instruction} :
    Closed ws → Closed (.op o :: (ws ++ [.op .endIf]))
  | branches {o : Opcode} (conditional : o = .ifOp ∨ o = .notIf) {ws vs : List Instruction} :
    Closed ws → Closed vs → Closed (.op o :: (ws ++ .op .elseOp :: (vs ++ [.op .endIf])))

namespace Closed

theorem op {o : Opcode} (plain : isPlain o = true) : Closed [.op o] :=
  .word (by rintro _ ⟨⟩; exact plain)

theorem of_forall {ws : List Instruction} (each : ∀ w ∈ ws, ∀ o, w = .op o → isPlain o = true) :
    Closed ws := by
  induction ws with
  | nil => exact .nil
  | cons w ws ih =>
    obtain ⟨first, others⟩ := List.forall_mem_cons.1 each
    exact .append (.word first) (ih others)

/-- Whatever takes the steps, closed instructions in a branch that is not run change nothing, if
steps in such a branch are those of the machine. -/
theorem foldlM_idle {next : State → Instruction → Option State}
    (same : ∀ s i, isRunning s.inside = false → next s i = step env s i) {ws : List Instruction}
    (closed : Closed ws) (idle : isRunning inside = false) :
    ws.foldlM next ⟨st, alt, inside⟩ = some ⟨st, alt, inside⟩ := by
  -- A conditional in such a branch is skipped, which is not run either.
  induction closed generalizing inside with
  | nil => rfl
  | @word w plain =>
    have skipped : step env ⟨st, alt, inside⟩ w = some ⟨st, alt, inside⟩ := by
      cases w with
      | op o => exact step_plain_idle (plain o rfl) idle
      | _ =>
        simp only [step, idle]
        rfl
    rw [List.foldlM_cons, same _ _ idle, skipped]
    rfl
  | append _ _ ih ih' =>
    rw [List.foldlM_append, ih idle]
    exact ih' idle
  | branch conditional _ ih =>
    rw [List.foldlM_cons, same _ _ idle, step_enter_idle conditional idle, Option.bind_eq_bind,
      Option.bind_some, List.foldlM_append, ih rfl, Option.bind_eq_bind, Option.bind_some,
      List.foldlM_cons, same _ _ rfl]
    rfl
  | branches conditional _ _ ih ih' =>
    rw [List.foldlM_cons, same _ _ idle, step_enter_idle conditional idle, Option.bind_eq_bind,
      Option.bind_some, List.foldlM_append, ih rfl, Option.bind_eq_bind, Option.bind_some,
      List.foldlM_cons, same _ _ rfl, step_else_skipped, Option.bind_eq_bind, Option.bind_some,
      List.foldlM_append, ih' rfl, Option.bind_eq_bind, Option.bind_some, List.foldlM_cons,
      same _ _ rfl]
    rfl

end Closed

theorem isPlain_of_mem_leaf {l : Leaf} :
    ∀ w ∈ (Fragment.leaf l).words, ∀ o, w = .op o → isPlain o = true := by
  cases l with
  | hashLock f image =>
    cases f <;>
      simp [Fragment.words_leaf, Leaf.instructions, Instruction.simpler, Opcode.simpler,
        Opcode.orVerify, isPlain, HashFunction.opcode]
  | multi k keys =>
    rintro w member o rfl
    simp only [Fragment.words_multi, List.mem_cons, List.mem_append, List.mem_map, reduceCtorEq,
      and_false, exists_false, Instruction.op.injEq, List.not_mem_nil, false_or, or_false] at member
    rw [member]
    rfl
  | _ => simp [Fragment.words_leaf, Leaf.instructions, Instruction.simpler, Opcode.simpler, isPlain]

theorem closed_sumWords {first : Bool} {subs : List Fragment} (each : ∀ x ∈ subs, Closed x.words) :
    Closed (Fragment.sumWords first subs) := by
  induction subs generalizing first with
  | nil => exact .nil
  | cons x subs ih =>
    obtain ⟨head, others⟩ := List.forall_mem_cons.1 each
    rw [Fragment.sumWords]
    refine .append (.append head ?_) (ih others)
    cases first
    · exact .op rfl
    · exact .nil

/-- Every conditional of a fragment is closed. -/
theorem closed_words (f : Fragment) : Closed f.words := by
  induction f with
  | leaf l => exact .of_forall isPlain_of_mem_leaf
  | wrap w x ih =>
    cases w with
    | alt =>
      rw [Fragment.words_alt]
      exact .append (.op rfl) (.append ih (.op rfl))
    | swap =>
      rw [Fragment.words_swap]
      exact .append (.op rfl) ih
    | check =>
      rw [Fragment.words_check]
      exact .append ih (.op rfl)
    | dupIf =>
      rw [Fragment.words_dupIf]
      exact .append (.op rfl) (.branch (.inl rfl) ih)
    | verify =>
      rw [Fragment.words_verify]
      exact .append ih (.op rfl)
    | nonZero =>
      rw [Fragment.words_nonZero]
      exact .append (.op rfl) (.append (.op rfl) (.branch (.inl rfl) ih))
    | zeroNotEqual =>
      rw [Fragment.words_zeroNotEqual]
      exact .append ih (.op rfl)
  | pair op x y ihx ihy =>
    cases op with
    | andV =>
      rw [Fragment.words_andV]
      exact .append ihx ihy
    | andB =>
      rw [Fragment.words_andB]
      exact .append ihx (.append ihy (.op rfl))
    | orB =>
      rw [Fragment.words_orB]
      exact .append ihx (.append ihy (.op rfl))
    | orD =>
      rw [Fragment.words_orD]
      exact .append ihx (.append (.op rfl) (.branch (.inr rfl) ihy))
    | orC =>
      rw [Fragment.words_orC]
      exact .append ihx (.branch (.inr rfl) ihy)
    | orI =>
      rw [Fragment.words_orI]
      exact .branches (.inl rfl) ihx ihy
  | andor x y z ihx ihy ihz =>
    rw [Fragment.words_andor]
    exact .append ihx (.branches (.inr rfl) ihz ihy)
  | thresh k subs ih =>
    rw [Fragment.words_thresh]
    exact .append (closed_sumWords ih) (.of_forall (by simp [isPlain]))

/-- A fragment in a branch that is not run changes nothing. -/
theorem run_words_idle {f : Fragment} (idle : isRunning inside = false) :
    run env f.words ⟨st, alt, inside⟩ = some ⟨st, alt, inside⟩ :=
  (closed_words f).foldlM_idle (fun _ _ _ => rfl) idle

/-! ## Leaves -/

/-- Keys are pushed one by one, so that the last one comes to lie on top. -/
theorem exists_bytes_of_run_keys {keys : List Key} (running : isRunning inside = true)
    (ran : run env (keys.map .key ++ is) ⟨st, alt, inside⟩ = some t) :
    ∃ ds : List Bytes, keys.map Key.bytes? = ds.map some ∧
      run env is ⟨ds.reverse ++ st, alt, inside⟩ = some t := by
  induction keys generalizing st with
  | nil => exact ⟨[], rfl, ran⟩
  | cons key keys ih =>
    cases known : key.bytes? with
    | none =>
      simp [run_cons, step, pushed?, known, running] at ran
    | some d =>
      have pushed : pushed? (.key key) = some d := known
      rw [List.map_cons, List.cons_append, run_push pushed running] at ran
      obtain ⟨ds, each, ran⟩ := ih ran
      refine ⟨d :: ds, ?_, ?_⟩
      · rw [List.map_cons, List.map_cons, known, each]
      · rwa [List.reverse_cons, List.append_assoc]

theorem flag_bytes_eq {width : Nat} (x y : Digest width) :
    flag (x.bytes = y.bytes) = flag (y = x) := by
  congr 2
  exact propext ⟨fun same => (Digest.ext_bytes same).symm, fun same => by rw [same]⟩

/-- What EQUALVERIFY lets pass. -/
theorem exists_equal_verify {v : Bytes} {below : Stack} (running : isRunning inside = true)
    (ran : run env (.op .equal :: .op .verify :: is) ⟨v :: below, alt, inside⟩ = some t) :
    ∃ rest, below = v :: rest ∧ run env is ⟨rest, alt, inside⟩ = some t := by
  obtain ⟨main, alt', performed, ran⟩ := exists_perform rfl running ran
  obtain ⟨v', w, rest, same, result⟩ := perform_equal_iff.1 performed
  cases same
  cases result
  obtain ⟨main, alt', performed, ran⟩ := exists_perform rfl running ran
  obtain ⟨u, rest', same, set, result⟩ := perform_verify_iff.1 performed
  cases same
  cases result
  rw [isTrue_flag, decide_eq_true_eq] at set
  exact ⟨rest, by rw [set], ran⟩

theorem exists_evaluatesLeaf {l : Leaf} (running : isRunning inside = true)
    (ran : run env ((Fragment.leaf l).words ++ is) ⟨st, alt, inside⟩ = some t) :
    ∃ v rest, EvaluatesLeaf env l st v rest ∧ run env is ⟨v :: rest, alt, inside⟩ = some t := by
  cases l with
  | zero =>
    change run env (.bit false :: is) _ = _ at ran
    rw [run_push rfl running] at ran
    exact ⟨_, _, .zero, ran⟩
  | one =>
    change run env (.bit true :: is) _ = _ at ran
    rw [run_push rfl running] at ran
    exact ⟨_, _, .one, ran⟩
  | pk key =>
    change run env ([key].map .key ++ is) _ = _ at ran
    obtain ⟨ds, known, ran⟩ := exists_bytes_of_run_keys running ran
    obtain ⟨d, rfl⟩ : ∃ d, ds = [d] := by
      rw [← List.length_eq_one_iff]
      simpa using congrArg List.length known.symm
    exact ⟨d, st, .pk (List.head_eq_of_cons_eq known), ran⟩
  | pkHash hash =>
    change run env (.op .dup :: .op .hash160 :: .data hash.bytes :: .op .equal :: .op .verify :: is)
      _ = _ at ran
    obtain ⟨main, alt', performed, ran⟩ := exists_perform rfl running ran
    obtain ⟨d, below, rfl, result⟩ := perform_dup_iff.1 performed
    cases result
    obtain ⟨main, alt', performed, ran⟩ := exists_perform rfl running ran
    obtain ⟨d', below', same, result⟩ := (perform_hash_iff (f := .hash160)).1 performed
    cases same
    cases result
    rw [run_push rfl running] at ran
    obtain ⟨rest, same, ran⟩ := exists_equal_verify running ran
    obtain ⟨committed, rfl⟩ := List.cons.inj same
    exact ⟨d, below, .pkHash (Digest.ext_bytes committed), ran⟩
  | after lock =>
    change run env (.number lock.toNat :: .op .checkLockTimeVerify :: is) _ = _ at ran
    rw [run_push rfl running] at ran
    obtain ⟨main, alt', performed, ran⟩ := exists_perform rfl running ran
    obtain ⟨main', checked, result⟩ := Option.map_eq_some_iff.1 performed
    cases result
    obtain ⟨passes, rfl⟩ := checkLock_encode checked
    exact ⟨_, _, .after passes, ran⟩
  | older lock =>
    change run env (.number lock.toNat :: .op .checkSequenceVerify :: is) _ = _ at ran
    rw [run_push rfl running] at ran
    obtain ⟨main, alt', performed, ran⟩ := exists_perform rfl running ran
    obtain ⟨main', checked, result⟩ := Option.map_eq_some_iff.1 performed
    cases result
    obtain ⟨passes, rfl⟩ := checkLock_encode checked
    exact ⟨_, _, .older passes, ran⟩
  | hashLock f image =>
    have plain : isPlain f.opcode = true := by
      cases f <;> rfl
    rw [Fragment.words_hashLock] at ran
    obtain ⟨main, alt', performed, ran⟩ := exists_perform rfl running ran
    obtain ⟨d, below, rfl, result⟩ := perform_size_iff.1 performed
    cases result
    change run env (.number 32 :: .op .equal :: .op .verify :: .op f.opcode :: .data image.bytes ::
      .op .equal :: is) _ = _ at ran
    rw [run_push rfl running] at ran
    obtain ⟨rest, same, ran⟩ := exists_equal_verify running ran
    obtain ⟨size, rfl⟩ := List.cons.inj same
    obtain ⟨main, alt', performed, ran⟩ := exists_perform plain running ran
    obtain ⟨d', below', same, result⟩ := perform_hash_iff.1 performed
    cases same
    cases result
    rw [run_push rfl running] at ran
    obtain ⟨main, alt', performed, ran⟩ := exists_perform rfl running ran
    obtain ⟨v, w, rest, same, result⟩ := perform_equal_iff.1 performed
    cases same
    cases result
    rw [flag_bytes_eq] at ran
    exact ⟨_, _, .hashLock (ScriptNumber.encode_injective size), ran⟩
  | multi k keys =>
    rw [Fragment.words_multi, List.cons_append, run_push rfl running, List.append_assoc] at ran
    obtain ⟨ds, known, ran⟩ := exists_bytes_of_run_keys running ran
    change run env (.number keys.length :: .op .checkMultiSig :: is) _ = _ at ran
    rw [run_push rfl running] at ran
    obtain ⟨main, alt', performed, ran⟩ := exists_perform rfl running ran
    obtain ⟨main', checked, result⟩ := Option.map_eq_some_iff.1 performed
    cases result
    have size : ds.reverse.length = keys.length := by
      rw [List.length_reverse]
      simpa using congrArg List.length known.symm
    obtain ⟨sigs, dummy, rest, enough, rfl, rfl⟩ := checkMultiSig_encode size checked
    exact ⟨_, _, .multi known enough, ran⟩

/-! ## Fragments -/

/-- Where the value of a fragment is put, by the base of the fragment. -/
def Placed : Base → Bytes → Stack → Stack → Prop
  | .B, v, rest, main => main = v :: rest
  | .K, v, rest, main => main = v :: rest
  | .V, _, rest, main => main = rest
  | .W, v, rest, main =>
    ∃ d below, rest = d :: below ∧ (main = v :: d :: below ∨ main = d :: v :: below)
  | .other _, _, _, _ => False

/-- Runs through the fragment, whatever comes after it. -/
def Simulated (env : Environment) (f : Fragment) (b : Base) : Prop :=
  ∀ ⦃st alt : Stack⦄ ⦃inside : List Branch⦄ ⦃is : List Instruction⦄ ⦃t : State⦄,
    isRunning inside = true → run env (f.words ++ is) ⟨st, alt, inside⟩ = some t →
    ∃ v rest main, Evaluates env f st v rest ∧ Placed b v rest main ∧
      run env is ⟨main, alt, inside⟩ = some t

theorem run_words_append_idle {f : Fragment} (idle : isRunning inside = false) :
    run env (f.words ++ is) ⟨st, alt, inside⟩ = run env is ⟨st, alt, inside⟩ := by
  rw [run_append, run_words_idle idle]
  rfl

/-- An arithmetic opcode after a W does not depend on the side on which the value was put. -/
theorem exists_operands {o : Opcode} {g : Int → Int → Bytes} {b c : Bytes} {main below : Stack}
    (plain : isPlain o = true)
    (acts : ∀ v w, perform env o (v :: w :: below) alt
      = (operand? v).bind fun n => (operand? w).map fun k => (g k n :: below, alt))
    (comm : ∀ n k, g n k = g k n) (running : isRunning inside = true)
    (order : main = b :: c :: below ∨ main = c :: b :: below)
    (ran : run env (.op o :: is) ⟨main, alt, inside⟩ = some t) :
    ∃ n k, operand? c = some n ∧ operand? b = some k ∧
      run env is ⟨g n k :: below, alt, inside⟩ = some t := by
  obtain ⟨main', alt', performed, ran⟩ := exists_perform plain running ran
  rcases order with rfl | rfl
  all_goals
    rw [acts] at performed
    obtain ⟨n, read, performed⟩ := Option.bind_eq_some_iff.1 performed
    obtain ⟨k, read', result⟩ := Option.map_eq_some_iff.1 performed
    cases result
  · exact ⟨k, n, read', read, ran⟩
  · exact ⟨n, k, read, read', comm n k ▸ ran⟩

theorem simulated_wrap {w : Wrapper} {x : Fragment} {fx : Facts Int64} {c : Correctness}
    (typed : x.facts? = .ok fx) (made : Correctness.wrap w fx.type.corr = .ok c)
    (inner : Simulated env x fx.type.corr.base) : Simulated env (.wrap w x) c.base := by
  intro st alt inside is t running ran
  cases w with
  | alt =>
    obtain ⟨base, rfl⟩ := Correctness.wrap_alt_iff.1 made
    rw [base] at inner
    simp only [Fragment.words_alt, List.cons_append, List.append_assoc, List.nil_append] at ran
    obtain ⟨main, alt', performed, ran⟩ := exists_perform rfl running ran
    obtain ⟨d, below, rfl, result⟩ := perform_toAltStack_iff.1 performed
    cases result
    obtain ⟨v, rest, main, evaluated, rfl, ran⟩ := inner running ran
    obtain ⟨main, alt', performed, ran⟩ := exists_perform rfl running ran
    cases perform_fromAltStack_cons.1 performed
    exact ⟨v, d :: rest, _, .alt evaluated, ⟨d, rest, rfl, .inr rfl⟩, ran⟩
  | swap =>
    obtain ⟨base, one, rfl⟩ := Correctness.wrap_swap_iff.1 made
    simp only [Fragment.words_swap, List.cons_append] at ran
    obtain ⟨main, alt', performed, ran⟩ := exists_perform rfl running ran
    obtain ⟨d, w, below, rfl, result⟩ := perform_swap_iff.1 performed
    cases result
    rw [base] at inner
    obtain ⟨v, rest, main, evaluated, rfl, ran⟩ := inner running ran
    -- exactly one element is taken, so that the one below is still there
    have taken := evaluated.takes typed
    rw [base] at taken
    obtain ⟨w', same⟩ := Input.takes_of_isSubtype_one one taken
    cases same
    exact ⟨v, _, _, .swap evaluated, ⟨d, below, rfl, .inl rfl⟩, ran⟩
  | check =>
    obtain ⟨base, rfl⟩ := Correctness.wrap_check_iff.1 made
    rw [base] at inner
    simp only [Fragment.words_check, List.append_assoc, List.cons_append, List.nil_append] at ran
    obtain ⟨key, rest, main, evaluated, rfl, ran⟩ := inner running ran
    obtain ⟨main, alt', performed, ran⟩ := exists_perform rfl running ran
    obtain ⟨key', sig, below, same, result⟩ := perform_checkSig_iff.1 performed
    cases same
    cases result
    exact ⟨_, _, _, .check evaluated, rfl, ran⟩
  | dupIf =>
    obtain ⟨base, zero, rfl⟩ := Correctness.wrap_dupIf_iff.1 made
    simp only [Fragment.words_dupIf, List.cons_append, List.append_assoc, List.nil_append] at ran
    obtain ⟨main, alt', performed, ran⟩ := exists_perform rfl running ran
    obtain ⟨d, below, rfl, result⟩ := perform_dup_iff.1 performed
    cases result
    obtain ⟨d', below', same, ⟨set, ran⟩ | ⟨clear, ran⟩⟩ :=
      exists_enter step_ifOp running ran
    · cases same
      rw [base] at inner
      obtain ⟨v, rest, main, evaluated, rfl, ran⟩ := inner rfl ran
      have taken := evaluated.takes typed
      rw [base, zero] at taken
      cases taken
      exact ⟨_, _, _, .dupIf set evaluated, rfl, ran⟩
    · cases same
      rw [run_words_append_idle rfl, run_endIf] at ran
      exact ⟨_, _, _, .dupIfNot clear, rfl, ran⟩
  | verify =>
    obtain ⟨base, rfl⟩ := Correctness.wrap_verify_iff.1 made
    rw [base] at inner
    simp only [Fragment.words_verify, List.append_assoc, List.cons_append, List.nil_append] at ran
    obtain ⟨v, rest, main, evaluated, rfl, ran⟩ := inner running ran
    obtain ⟨main, alt', performed, ran⟩ := exists_perform rfl running ran
    obtain ⟨v', rest', same, set, result⟩ := perform_verify_iff.1 performed
    cases same
    cases result
    exact ⟨v, rest, rest, .verify evaluated set, rfl, ran⟩
  | nonZero =>
    obtain ⟨base, -, rfl⟩ := Correctness.wrap_nonZero_iff.1 made
    simp only [Fragment.words_nonZero, List.cons_append, List.append_assoc, List.nil_append] at ran
    obtain ⟨main, alt', performed, ran⟩ := exists_perform rfl running ran
    obtain ⟨d, below, rfl, result⟩ := perform_size_iff.1 performed
    cases result
    obtain ⟨main, alt', performed, ran⟩ := exists_perform rfl running ran
    obtain ⟨size, below', n, same, read, result⟩ := perform_zeroNotEqual_iff.1 performed
    cases same
    cases result
    have value := number?_encode read
    obtain ⟨size, below', same, ⟨set, ran⟩ | ⟨clear, ran⟩⟩ :=
      exists_enter step_ifOp running ran
    · cases same
      rw [isTrue_flag, decide_eq_true_eq, value] at set
      have nonempty : d ≠ [] := fun empty => set (by rw [empty]; rfl)
      rw [base] at inner
      obtain ⟨v, rest, main, evaluated, rfl, ran⟩ := inner rfl ran
      exact ⟨v, rest, _, .nonZero nonempty evaluated, rfl, ran⟩
    · cases same
      rw [isTrue_flag, Bool.not_true, decide_eq_false_iff_not, not_not, value] at clear
      have empty : d = [] := List.length_eq_zero_iff.1 (by omega)
      subst empty
      rw [run_words_append_idle rfl, run_endIf] at ran
      exact ⟨[], below, _, .nonZeroNot, rfl, ran⟩
  | zeroNotEqual =>
    obtain ⟨base, rfl⟩ := Correctness.wrap_zeroNotEqual_iff.1 made
    rw [base] at inner
    simp only [Fragment.words_zeroNotEqual, List.append_assoc, List.cons_append,
      List.nil_append] at ran
    obtain ⟨v, rest, main, evaluated, rfl, ran⟩ := inner running ran
    obtain ⟨main, alt', performed, ran⟩ := exists_perform rfl running ran
    obtain ⟨v', rest', n, same, read, result⟩ := perform_zeroNotEqual_iff.1 performed
    cases same
    cases result
    exact ⟨_, _, _, .zeroNotEqual evaluated read, rfl, ran⟩

theorem simulated_pair {op : Combinator} {x y : Fragment} {fx fy : Facts Int64} {c : Correctness}
    (made : Correctness.pair op fx.type.corr fy.type.corr = .ok c)
    (first : Simulated env x fx.type.corr.base) (second : Simulated env y fy.type.corr.base) :
    Simulated env (.pair op x y) c.base := by
  intro st alt inside is t running ran
  cases op with
  | andV =>
    obtain ⟨base, -, rfl⟩ := Correctness.pair_andV_iff.1 made
    rw [base] at first
    simp only [Fragment.words_andV, List.append_assoc] at ran
    obtain ⟨u, mid, main, left, rfl, ran⟩ := first running ran
    obtain ⟨v, rest, main, right, placed, ran⟩ := second running ran
    exact ⟨v, rest, main, .andV left right, placed, ran⟩
  | andB =>
    obtain ⟨base, base', rfl⟩ := Correctness.pair_andB_iff.1 made
    rw [base] at first
    rw [base'] at second
    simp only [Fragment.words_andB, List.append_assoc, List.cons_append, List.nil_append] at ran
    obtain ⟨a, mid, main, left, rfl, ran⟩ := first running ran
    obtain ⟨b, rest, main, right, ⟨c, below, rfl, order⟩, ran⟩ := second running ran
    obtain ⟨n, k, read, read', ran⟩ := exists_operands
      (g := fun n k => flag (n ≠ 0 ∧ k ≠ 0)) rfl (fun v w => rfl)
      (fun n k => by simp only [and_comm]) running order ran
    exact ⟨_, below, _, .andB left right read read', rfl, ran⟩
  | orB =>
    obtain ⟨base, base', -, -, rfl⟩ := Correctness.pair_orB_iff.1 made
    rw [base] at first
    rw [base'] at second
    simp only [Fragment.words_orB, List.append_assoc, List.cons_append, List.nil_append] at ran
    obtain ⟨a, mid, main, left, rfl, ran⟩ := first running ran
    obtain ⟨b, rest, main, right, ⟨c, below, rfl, order⟩, ran⟩ := second running ran
    obtain ⟨n, k, read, read', ran⟩ := exists_operands
      (g := fun n k => flag (n ≠ 0 ∨ k ≠ 0)) rfl (fun v w => rfl)
      (fun n k => by simp only [or_comm]) running order ran
    exact ⟨_, below, _, .orB left right read read', rfl, ran⟩
  | orD =>
    obtain ⟨base, base', -, -, rfl⟩ := Correctness.pair_orD_iff.1 made
    rw [base] at first
    rw [base'] at second
    simp only [Fragment.words_orD, List.append_assoc, List.cons_append, List.nil_append] at ran
    obtain ⟨u, mid, main, left, rfl, ran⟩ := first running ran
    obtain ⟨main, alt', performed, ran⟩ := exists_perform rfl running ran
    obtain ⟨u', mid', same, result⟩ := perform_ifDup_iff.1 performed
    cases same
    cases result
    cases truth : isTrue u with
    | true =>
      rw [truth, if_pos rfl] at ran
      obtain ⟨d, below, same, ⟨clear, ran⟩ | ⟨set, ran⟩⟩ := exists_enter step_notIf running ran
      · cases same
        rw [truth] at clear
        cases clear
      · cases same
        rw [run_words_append_idle rfl, run_endIf] at ran
        exact ⟨u, mid, _, .orD left truth, rfl, ran⟩
    | false =>
      rw [truth, if_neg (by decide)] at ran
      obtain ⟨d, below, same, ⟨clear, ran⟩ | ⟨set, ran⟩⟩ := exists_enter step_notIf running ran
      · cases same
        obtain ⟨v, rest, main, right, rfl, ran⟩ := second rfl ran
        exact ⟨v, rest, _, .orDElse left truth right, rfl, ran⟩
      · cases same
        rw [truth] at set
        cases set
  | orC =>
    obtain ⟨base, base', -, -, rfl⟩ := Correctness.pair_orC_iff.1 made
    rw [base] at first
    rw [base'] at second
    simp only [Fragment.words_orC, List.append_assoc, List.cons_append, List.nil_append] at ran
    obtain ⟨u, mid, main, left, rfl, ran⟩ := first running ran
    obtain ⟨d, below, same, ⟨clear, ran⟩ | ⟨set, ran⟩⟩ := exists_enter step_notIf running ran
    · cases same
      obtain ⟨v, rest, main, right, rfl, ran⟩ := second rfl ran
      exact ⟨v, _, _, .orCElse left clear right, rfl, ran⟩
    · cases same
      rw [run_words_append_idle rfl, run_endIf] at ran
      exact ⟨u, mid, _, .orC left set, rfl, ran⟩
  | orI =>
    obtain ⟨same, -, rfl⟩ := Correctness.pair_orI_iff.1 made
    simp only [Fragment.words_orI, List.append_assoc, List.cons_append, List.nil_append] at ran
    obtain ⟨d, below, rfl, ⟨set, ran⟩ | ⟨clear, ran⟩⟩ := exists_enter step_ifOp running ran
    · obtain ⟨v, rest, main, left, placed, ran⟩ := first rfl ran
      rw [run_else_taken, run_words_append_idle rfl, run_endIf] at ran
      exact ⟨v, rest, main, .orI set left, placed, ran⟩
    · rw [run_words_append_idle rfl, run_else_untaken] at ran
      obtain ⟨v, rest, main, right, placed, ran⟩ := second rfl ran
      rw [← same] at placed
      exact ⟨v, rest, main, .orIElse clear right, placed, ran⟩

theorem simulated_andor {x y z : Fragment} {fx fy fz : Facts Int64} {c : Correctness}
    (made : Correctness.andor fx.type.corr fy.type.corr fz.type.corr = .ok c)
    (first : Simulated env x fx.type.corr.base) (second : Simulated env y fy.type.corr.base)
    (third : Simulated env z fz.type.corr.base) : Simulated env (.andor x y z) c.base := by
  intro st alt inside is t running ran
  obtain ⟨base, same, -, -, -, rfl⟩ := Correctness.andor_iff.1 made
  rw [base] at first
  simp only [Fragment.words_andor, List.append_assoc, List.cons_append, List.nil_append] at ran
  obtain ⟨u, mid, main, left, rfl, ran⟩ := first running ran
  obtain ⟨d, below, equal, ⟨clear, ran⟩ | ⟨set, ran⟩⟩ := exists_enter step_notIf running ran
  · cases equal
    obtain ⟨v, rest, main, right, placed, ran⟩ := third rfl ran
    rw [run_else_taken, run_words_append_idle rfl, run_endIf] at ran
    rw [← same] at placed
    exact ⟨v, rest, main, .andorElse left clear right, placed, ran⟩
  · cases equal
    rw [run_words_append_idle rfl, run_else_untaken] at ran
    obtain ⟨v, rest, main, right, placed, ran⟩ := second rfl ran
    exact ⟨v, rest, main, .andor left set right, placed, ran⟩

/-- The parts of a threshold after the first, each added to the sum so far. -/
theorem exists_evaluatesSum {subs : List Fragment} {a : Bytes}
    (each : ∀ x ∈ subs, Simulated env x .W) (running : isRunning inside = true)
    (ran : run env (Fragment.sumWords false subs ++ is) ⟨a :: st, alt, inside⟩ = some t) :
    ∃ total rest, EvaluatesSum env subs a st total rest ∧
      run env is ⟨total :: rest, alt, inside⟩ = some t := by
  induction subs generalizing a st with
  | nil => exact ⟨a, st, .nil, ran⟩
  | cons x subs ih =>
    simp only [Fragment.sumWords, if_neg (show ¬ false = true by decide), List.append_assoc,
      List.cons_append, List.nil_append] at ran
    obtain ⟨b, rest, main, part, ⟨c, below, rfl, order⟩, ran⟩ :=
      each x List.mem_cons_self running ran
    obtain ⟨n, k, read, read', ran⟩ := exists_operands
      (g := fun n k => ScriptNumber.encodeInt (n + k)) rfl (fun v w => rfl)
      (fun n k => by simp only [Int.add_comm]) running order ran
    obtain ⟨total, rest, sum, ran⟩ :=
      ih (fun y member => each y (List.mem_cons_of_mem _ member)) ran
    exact ⟨total, rest, .cons part read read' sum, ran⟩

theorem simulated_thresh {k : Int} {x : Fragment} {subs : List Fragment}
    (first : Simulated env x .B) (others : ∀ y ∈ subs, Simulated env y .W) :
    Simulated env (.thresh k (x :: subs)) .B := by
  intro st alt inside is t running ran
  simp only [Fragment.words_thresh, Fragment.sumWords, if_true, List.append_nil,
    List.append_assoc, List.cons_append, List.nil_append] at ran
  obtain ⟨a, mid, main, left, rfl, ran⟩ := first running ran
  obtain ⟨total, rest, sum, ran⟩ := exists_evaluatesSum others running ran
  rw [run_push rfl running] at ran
  obtain ⟨main, alt', performed, ran⟩ := exists_perform rfl running ran
  obtain ⟨v, w, rest', same, result⟩ := perform_equal_iff.1 performed
  cases same
  cases result
  exact ⟨_, rest, _, .thresh left sum, rfl, ran⟩

/-- Every run through the words of a typed fragment comes to a value of it, puts it where the
base of the fragment says, and leaves everything else as it was. -/
theorem simulated {f : Fragment} {facts : Facts Int64} (typed : f.facts? = .ok facts) :
    Simulated env f facts.type.corr.base := by
  induction f generalizing facts with
  | leaf l =>
    obtain ⟨-, rfl, -⟩ := Fragment.facts?_leaf_iff.1 typed
    intro st alt inside is t running ran
    obtain ⟨v, rest, evaluated, ran⟩ := exists_evaluatesLeaf running ran
    refine ⟨v, rest, v :: rest, .leaf evaluated, ?_, ran⟩
    cases l <;> rfl
  | wrap w x ih =>
    obtain ⟨fx, c, hx, made, rfl, -⟩ := Fragment.facts?_wrap_iff.1 typed
    exact simulated_wrap hx made (ih hx)
  | pair op x y ihx ihy =>
    obtain ⟨fx, fy, c, hx, hy, made, rfl, -⟩ := Fragment.facts?_pair_iff.1 typed
    exact simulated_pair made (ihx hx) (ihy hy)
  | andor x y z ihx ihy ihz =>
    obtain ⟨fx, fy, fz, c, hx, hy, hz, made, rfl, -⟩ := Fragment.facts?_andor_iff.1 typed
    exact simulated_andor made (ihx hx) (ihy hy) (ihz hz)
  | thresh k subs ih =>
    obtain ⟨fs, each, enough, made, rfl, -⟩ := Fragment.facts?_thresh_iff.1 typed
    cases each with
    | nil =>
      have range := Facts.checkThreshold_iff.1 enough
      exact absurd (Int.le_trans range.1 range.2) (by decide)
    | @cons x fx subs fs hx later =>
      rw [List.map_cons, Correctness.checkSubs_zero_cons_iff] at made
      obtain ⟨⟨base, -, -⟩, below⟩ := made
      have first : Simulated env x fx.type.corr.base := ih x List.mem_cons_self hx
      rw [base] at first
      refine simulated_thresh first fun y member => ?_
      obtain ⟨fy, inside, hy⟩ := Fragment.exists_facts?_of_mem later member
      have part : Simulated env y fy.type.corr.base := ih y (List.mem_cons_of_mem _ member) hy
      rw [(below _ (List.mem_map_of_mem inside)).1] at part
      exact part

end LockScript.Machine
