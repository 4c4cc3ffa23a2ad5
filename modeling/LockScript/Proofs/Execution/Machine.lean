import LockScript.Proofs.Fragment.Script

/-!
The machine that runs scripts.

It has a main stack, an alternative stack, and the conditionals around the place it has reached.
What it cannot compute itself is left to an environment: which signatures are accepted, the hash
functions, and which lock times have come. An opcode that fails ends the run without a state. Rules
that do no more than end runs early (limits on sizes and counts, a minimal argument of IF, an empty
signature where one fails) are left out, so every run under such rules is a run here.
-/

namespace LockScript

/-- What a run depends on besides the script and the stack. -/
structure Environment where
  /-- Whether CHECKSIG accepts the signature for the key. -/
  accepts : (key signature : Bytes) → Bool
  digest : (f : HashFunction) → Bytes → Digest f.width
  /-- Whether CHECKSEQUENCEVERIFY lets the number pass. -/
  older : Nat → Bool
  /-- Whether CHECKLOCKTIMEVERIFY lets the number pass. -/
  after : Nat → Bool

/-- A script number of either sign: the sign is the top bit of the last byte. -/
def ScriptNumber.encodeInt (n : Int) : Bytes :=
  let size := encode n.natAbs
  if n < 0 then size.dropLast ++ [size.getLast?.getD 0 ||| 0x80] else size

namespace Machine

/-! ## Stack elements -/

/-- A stack, its top first. -/
abbrev Stack := List Bytes

/-- How opcodes write a truth value. -/
def flag (b : Bool) : Bytes := if b then [1] else []

/-- Whether an element counts as true: it is no zero, with or without a sign. -/
def isTrue : Bytes → Bool
  | [] => false
  | [b] => b ≠ 0 && b ≠ 0x80
  | b :: rest => b ≠ 0 || isTrue rest

/-- The number an opcode takes an element for. It must be minimal, with no more bytes than the
opcode takes. -/
def number? (size : Nat) (d : Bytes) : Option Int :=
  if d.length ≤ size ∧ ScriptNumber.isMinimal d = true then some (ScriptNumber.decode d) else none

/-- The operand of an arithmetic opcode. -/
def operand? (d : Bytes) : Option Int := number? 4 d

/-- A number on top of the stack, and then as many elements. -/
def popCounted : Stack → Option (List Bytes × Stack)
  | [] => none
  | d :: st => match operand? d with
    | none => none
    | some n =>
      if 0 ≤ n ∧ n ≤ st.length then some (st.take n.toNat, st.drop n.toNat) else none

/-- Whether each signature is accepted for a key of its own, the keys being tried in order. -/
def inOrder (env : Environment) : (keys signatures : List Bytes) → Bool
  | _, [] => true
  | [], _ :: _ => false
  | key :: keys, sig :: sigs =>
    if env.accepts key sig then inOrder env keys sigs else inOrder env keys (sig :: sigs)

/-- Counted keys, counted signatures and one element more, which is not looked at. -/
def checkMultiSig (env : Environment) (st : Stack) : Option Stack :=
  match popCounted st with
  | none => none
  | some (keys, below) => match popCounted below with
    | none => none
    | some (sigs, rest) =>
      if sigs.length ≤ keys.length then
        match rest with
        | [] => none
        | _ :: rest => some (flag (inOrder env keys sigs) :: rest)
      else none

/-- A lock time on top of the stack is left there if it passes. -/
def checkLock (passes : Nat → Bool) : Stack → Option Stack
  | [] => none
  | d :: st => match number? 5 d with
    | none => none
    | some n => if 0 ≤ n ∧ passes n.toNat = true then some (d :: st) else none

/-- What an opcode other than a conditional and a VERIFY form does to the two stacks. -/
def perform (env : Environment) (o : Opcode) (main alt : Stack) : Option (Stack × Stack) :=
  match o, main with
  | .verify, v :: st => if isTrue v then some (st, alt) else none
  | .toAltStack, v :: st => some (st, v :: alt)
  | .fromAltStack, st => match alt with
    | [] => none
    | v :: alt => some (v :: st, alt)
  | .ifDup, v :: st => some (if isTrue v then v :: v :: st else v :: st, alt)
  | .dup, v :: st => some (v :: v :: st, alt)
  | .swap, v :: w :: st => some (w :: v :: st, alt)
  | .size, v :: st => some (ScriptNumber.encode v.length :: v :: st, alt)
  | .equal, v :: w :: st => some (flag (v = w) :: st, alt)
  | .zeroNotEqual, v :: st => (operand? v).map fun n => (flag (n ≠ 0) :: st, alt)
  | .add, v :: w :: st =>
    (operand? v).bind fun n => (operand? w).map fun k =>
      (ScriptNumber.encodeInt (k + n) :: st, alt)
  | .boolAnd, v :: w :: st =>
    (operand? v).bind fun n => (operand? w).map fun k => (flag (k ≠ 0 ∧ n ≠ 0) :: st, alt)
  | .boolOr, v :: w :: st =>
    (operand? v).bind fun n => (operand? w).map fun k => (flag (k ≠ 0 ∨ n ≠ 0) :: st, alt)
  | .ripemd160, v :: st => some ((env.digest .ripemd160 v).bytes :: st, alt)
  | .sha256, v :: st => some ((env.digest .sha256 v).bytes :: st, alt)
  | .hash160, v :: st => some ((env.digest .hash160 v).bytes :: st, alt)
  | .hash256, v :: st => some ((env.digest .hash256 v).bytes :: st, alt)
  | .checkSig, key :: sig :: st => some (flag (env.accepts key sig) :: st, alt)
  | .checkMultiSig, st => (checkMultiSig env st).map fun st => (st, alt)
  | .checkLockTimeVerify, st => (checkLock env.after st).map fun st => (st, alt)
  | .checkSequenceVerify, st => (checkLock env.older st).map fun st => (st, alt)
  | _, _ => none

/-! ## Steps -/

/-- A conditional the machine is inside of. -/
inductive Branch where
  /-- Its branch is run. -/
  | taken
  /-- Its other branch is run. -/
  | untaken
  /-- Neither branch is run, as the conditional is inside a branch that is not. -/
  | skipped
  deriving DecidableEq, Repr

/-- The machine between two instructions; the innermost conditional comes first. -/
structure State where
  main : Stack
  alt : Stack
  inside : List Branch
  deriving DecidableEq, Repr

/-- Whether instructions are run inside these conditionals. -/
def isRunning : List Branch → Bool
  | [] => true
  | b :: _ => b = .taken

/-- Enters a conditional whose first branch is run if the top of the stack is `wanted`. -/
def enter (wanted : Bool) (s : State) : Option State :=
  if isRunning s.inside then
    match s.main with
    | [] => none
    | v :: st => some ⟨st, s.alt, (if isTrue v = wanted then .taken else .untaken) :: s.inside⟩
  else some ⟨s.main, s.alt, .skipped :: s.inside⟩

/-- Goes on to the other branch of the innermost conditional. -/
def switch (s : State) : Option State :=
  match s.inside with
  | [] => none
  | .taken :: outer => some ⟨s.main, s.alt, .untaken :: outer⟩
  | .untaken :: outer => some ⟨s.main, s.alt, .taken :: outer⟩
  | .skipped :: outer => some ⟨s.main, s.alt, .skipped :: outer⟩

/-- Leaves the innermost conditional. -/
def leave (s : State) : Option State :=
  match s.inside with
  | [] => none
  | _ :: outer => some ⟨s.main, s.alt, outer⟩

/-- One opcode that is no VERIFY form. -/
def stepOpcode (env : Environment) (s : State) : Opcode → Option State
  | .ifOp => enter true s
  | .notIf => enter false s
  | .elseOp => switch s
  | .endIf => leave s
  | o =>
    if isRunning s.inside then
      (perform env o s.main s.alt).map fun (main, alt) => ⟨main, alt, s.inside⟩
    else some s

/-- The element an instruction pushes, if it is a push; there is none for a key not known. -/
def pushed? : Instruction → Option Bytes
  | .op _ => none
  | .bit b => some (flag b)
  | .number n => some (ScriptNumber.encode n)
  | .data d => some d
  | .key k => k.bytes?

/-- One instruction; a VERIFY form is run as the opcode and then VERIFY. -/
def step (env : Environment) (s : State) : Instruction → Option State
  | .op o => o.simpler.foldlM (stepOpcode env) s
  | i =>
    if isRunning s.inside then (pushed? i).map fun d => ⟨d :: s.main, s.alt, s.inside⟩ else some s

/-- One instruction after the other. -/
def run (env : Environment) (is : List Instruction) (s : State) : Option State :=
  is.foldlM (step env) s

/-- The machine before a script. -/
def start (st : Stack) : State := ⟨st, [], []⟩

/-- Whether a script that ends like this has succeeded: every conditional is closed and the top
of the stack is true. -/
def State.succeeds (s : State) : Bool := s.inside = [] && s.main.head?.any isTrue

/-! ## Scripts in bytes -/

/-- The instruction of an element, if the machine knows its opcode. -/
def instructionOf? (e : Script.Element) : Option Instruction :=
  match Opcode.ofCode? e.opcode with
  | some o => some (.op o)
  | none =>
    if e.opcode.toNat ≤ 0x4E then some (.data e.data)
    else if 0x51 ≤ e.opcode.toNat ∧ e.opcode.toNat ≤ 0x60 then
      some (.number (e.opcode.toNat - 0x50))
    else none

/-- One element after the other; a malformed script fails where it is malformed. -/
def runElements (env : Environment) : Script.Elements → State → Option State
  | .done, s => some s
  | .malformed _ _, _ => none
  | .cons e rest, s => match instructionOf? e with
    | none => none
    | some i => (step env s i).bind (runElements env rest)

/-- Runs the bytes of a script on a stack. -/
def execute (env : Environment) (script : Bytes) (st : Stack) : Option State :=
  runElements env (Script.elements script) (start st)

/-! ## Runs in parts -/

@[simp] theorem run_nil (env : Environment) (s : State) : run env [] s = some s := rfl

theorem run_cons (env : Environment) (i : Instruction) (is : List Instruction) (s : State) :
    run env (i :: is) s = (step env s i).bind (run env is) := rfl

theorem run_append (env : Environment) (is js : List Instruction) (s : State) :
    run env (is ++ js) s = (run env is s).bind (run env js) :=
  List.foldlM_append

theorem step_simpler (env : Environment) (s : State) (i : Instruction) :
    run env i.simpler s = step env s i := by
  cases i with
  | op o => cases o <;> simp [Instruction.simpler, Opcode.simpler, run, step]
  | bit b => simp [Instruction.simpler, run]
  | number n => simp [Instruction.simpler, run]
  | data d => simp [Instruction.simpler, run]
  | key k => simp [Instruction.simpler, run]

/-- A run sees the words of the instructions only. -/
theorem run_flatMap_simpler (env : Environment) (is : List Instruction) (s : State) :
    run env (is.flatMap Instruction.simpler) s = run env is s := by
  induction is generalizing s with
  | nil => rfl
  | cons i is ih =>
    rw [List.flatMap_cons, run_append, step_simpler, run_cons]
    exact congrArg _ (funext ih)

theorem run_instructions (env : Environment) (f : Fragment) (s : State) :
    run env (f.instructions false) s = run env f.words s :=
  (run_flatMap_simpler env (f.instructions false) s).symm

/-! ## Truth values and numbers -/

@[simp] theorem isTrue_flag (b : Bool) : isTrue (flag b) = b := by
  cases b <;> rfl

theorem flag_eq_one {b : Bool} (set : isTrue (flag b) = true) : flag b = [1] := by
  rw [isTrue_flag] at set
  rw [set, flag, if_pos rfl]

/-- What is not true stands for 0. -/
theorem decode_eq_zero {d : Bytes} (notTrue : isTrue d = false) : ScriptNumber.decode d = 0 := by
  rcases List.eq_nil_or_concat d with rfl | ⟨init, top, rfl⟩
  · rfl
  · rw [List.concat_eq_append] at notTrue ⊢
    have parts : ScriptNumber.ofLittleEndian init = 0 ∧ (top = 0 ∨ top = 0x80) := by
      induction init with
      | nil =>
        refine ⟨rfl, ?_⟩
        simpa [isTrue, or_iff_not_imp_left] using notTrue
      | cons b rest ih =>
        have split : b = 0 ∧ isTrue (rest ++ [top]) = false := by
          cases rest <;> simpa [isTrue] using notTrue
        obtain ⟨low, last⟩ := ih split.2
        exact ⟨by simp [ScriptNumber.ofLittleEndian, split.1, low], last⟩
    obtain ⟨low, rfl | rfl⟩ := parts
    · simp [ScriptNumber.decode, ScriptNumber.ofLittleEndian_append_zero, low]
    · simp [ScriptNumber.decode, ScriptNumber.ofLittleEndian_append_singleton, low,
        ScriptNumber.shiftLeft_bytes]

theorem operand?_eq_some {d : Bytes} {n : Int} (read : operand? d = some n) :
    ScriptNumber.decode d = n := by
  unfold operand? number? at read
  split at read
  · exact Option.some.inj read
  · cases read

/-- An operand other than 0 is true. -/
theorem isTrue_of_operand? {d : Bytes} {n : Int} (read : operand? d = some n) (nonzero : n ≠ 0) :
    isTrue d = true := by
  by_contra notTrue
  exact nonzero ((operand?_eq_some read).symm.trans (decode_eq_zero (by simpa using notTrue)))

theorem encodeInt_natCast (n : Nat) : ScriptNumber.encodeInt n = ScriptNumber.encode n := by
  simp [ScriptNumber.encodeInt]

/-! ## Runs of bytes -/

theorem step_push (env : Environment) (s : State) {i : Instruction} {d : Bytes}
    (pushed : pushed? i = some d) :
    step env s i = if isRunning s.inside then some ⟨d :: s.main, s.alt, s.inside⟩ else some s := by
  cases i with
  | op o => cases pushed
  | _ => simp only [step, pushed, Option.map_some]

/-- The opcode of a direct push is not known by a name. -/
theorem instructionOf?_push {d : Bytes} (short : d.length ≤ 0x4B) (offset : Nat) :
    instructionOf? ⟨offset, UInt8.ofNat d.length, d⟩ = some (.data d) := by
  have size : (UInt8.ofNat d.length).toNat = d.length := by
    rw [UInt8.toNat_ofNat']
    omega
  have low : d.length ≤ 0x4E := by omega
  simp only [instructionOf?, Opcode.ofCode?_eq_none (b := UInt8.ofNat d.length) (by omega), size,
    low, if_true]

/-- The bytes of an instruction are one element, which is run like the instruction. -/
theorem exists_instructionOf? {i : Instruction} (readable : i.Readable) {opcode : UInt8}
    {data : Bytes} (bytes : i.bytes = opcode :: data) (offset : Nat) :
    ∃ j, instructionOf? ⟨offset, opcode, data⟩ = some j ∧
      ∀ env s, step env s j = step env s i := by
  cases i with
  | op o =>
    cases bytes
    exact ⟨.op o, by simp [instructionOf?], fun env s => rfl⟩
  | bit b =>
    cases b with
    | false =>
      cases bytes
      exact ⟨.data [], rfl, fun env s => rfl⟩
    | true =>
      cases bytes
      exact ⟨.number 1, rfl, fun env s => rfl⟩
  | number n =>
    rw [Instruction.bytes, Instruction.numberBytes] at bytes
    split at bytes
    · next zero =>
      cases bytes
      subst zero
      exact ⟨.data [], rfl, fun env s => rfl⟩
    · split at bytes
      · next nonzero small =>
        cases bytes
        have size : (UInt8.ofNat (0x50 + n)).toNat = 0x50 + n := by
          rw [UInt8.toNat_ofNat']
          omega
        have high : ¬ 0x50 + n ≤ 0x4E := by omega
        have range : 0x51 ≤ 0x50 + n ∧ 0x50 + n ≤ 0x60 := by omega
        refine ⟨.number n, ?_, fun env s => rfl⟩
        simp only [instructionOf?, Opcode.ofCode?_eq_none (b := UInt8.ofNat (0x50 + n)) (by omega),
          size, high, range, if_false, if_true, and_self, Nat.add_sub_cancel_left]
      · cases bytes
        have short := ScriptNumber.length_encode_le readable
        exact ⟨_, instructionOf?_push (by omega) offset, fun env s => rfl⟩
  | data d =>
    have short : d.length ≤ 0x4B := by
      rcases readable with size | size | size <;> omega
    cases bytes
    exact ⟨_, instructionOf?_push short offset, fun env s => rfl⟩
  | key k =>
    obtain ⟨p, rfl⟩ := readable
    cases bytes
    have size := p.length_bytes
    exact ⟨_, instructionOf?_push (by omega) offset, fun env s => rfl⟩

theorem runElements_bytes (env : Environment) {is : List Instruction}
    (readable : ∀ i ∈ is, i.Readable) (bound offset : Nat) (s : State)
    (room : (is.flatMap Instruction.bytes).length ≤ bound) :
    runElements env (Script.elementsFrom bound offset (is.flatMap Instruction.bytes)) s
      = run env is s := by
  induction is generalizing bound offset s with
  | nil => cases bound <;> rfl
  | cons i is ih =>
    obtain ⟨opcode, data, read⟩ := Instruction.exists_readAs (readable i List.mem_cons_self)
    obtain ⟨j, named, same⟩ :=
      exists_instructionOf? (readable i List.mem_cons_self) read.bytes offset
    rw [List.flatMap_cons, read.bytes, List.cons_append] at room ⊢
    cases bound with
    | zero => simp at room
    | succ bound =>
      have later := ih fun k member => readable k (List.mem_cons_of_mem _ member)
      simp only [List.length_cons, List.length_append] at room
      simp only [Script.elementsFrom, read.push, runElements, named, same, run_cons, Nat.zero_add,
        List.drop_left]
      exact congrArg _ (funext fun t => later bound _ t (by omega))

/-- The bytes of a typed fragment and of what is put after it run like its words and that. -/
theorem runElements_script (env : Environment) {f : Fragment} {facts : Facts Int64} {b : Bytes}
    (typed : f.facts? = .ok facts) (written : f.script = .ok b) {after : List Instruction}
    (readable : ∀ i ∈ after, i.Readable) (s : State) :
    runElements env (Script.elements (b ++ after.flatMap Instruction.bytes)) s
      = run env (f.words ++ after) s := by
  have readable' := Fragment.readable_of_typed typed (Fragment.writable_of_script written)
  obtain ⟨-, rfl, -⟩ := Fragment.script_eq_ok_iff.1 written
  rw [← List.flatMap_append, run_append, ← run_instructions, ← run_append]
  apply runElements_bytes
  · exact List.forall_mem_append.2 ⟨Fragment.readable_iff.1 readable', readable⟩
  · exact Nat.le_refl _

/-- The bytes of a typed fragment run like its words. -/
theorem execute_script (env : Environment) {f : Fragment} {facts : Facts Int64} {b : Bytes}
    (typed : f.facts? = .ok facts) (written : f.script = .ok b) (st : Stack) :
    execute env b st = run env f.words (start st) := by
  have alone := runElements_script env typed written (List.forall_mem_nil _) (start st)
  rw [List.flatMap_nil, List.append_nil, List.append_nil] at alone
  exact alone

end Machine

end LockScript
