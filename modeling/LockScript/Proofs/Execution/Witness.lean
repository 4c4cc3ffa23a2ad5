import LockScript.Proofs.Execution.Standard

/-!
Stacks that fragments turn into values.

`Yields env f b w v` says that the words of the fragment `f`, used with base `b`, take the elements
`w` from the top of any stack and come to the value `v`, under the rules of standardness. There is
one rule for each way in which a fragment is satisfied or dissatisfied; together they tell how a
stack for a composition is put together from stacks for its parts.
-/

namespace LockScript.Machine

variable {env : Environment} {f x y z : Fragment} {b : Base} {w u wx wy wz : Stack} {v a : Bytes}

/-! ## Numbers as operands -/

theorem number?_of_length_le {size n : Nat} (short : (ScriptNumber.encode n).length ≤ size) :
    number? size (ScriptNumber.encode n) = some (n : Int) := by
  rw [number?, if_pos ⟨short, ScriptNumber.isMinimal_encode n⟩, ScriptNumber.decode_encode]

/-- Numbers of up to 31 bits are operands. -/
theorem operand?_encode {n : Nat} (small : n < 0x80000000) :
    operand? (ScriptNumber.encode n) = some (n : Int) :=
  number?_of_length_le (ScriptNumber.length_encode_le_iff.2 (by omega))

theorem isTrue_encode {n : Nat} (nonzero : n ≠ 0) : isTrue (ScriptNumber.encode n) = true := by
  by_contra notTrue
  have zero := decode_eq_zero (Bool.eq_false_iff.2 notTrue)
  rw [ScriptNumber.decode_encode] at zero
  omega

/-! ## Signatures in order -/

theorem inOrder_cons_of_tail {keys : List Bytes}
    (tail : ∀ {sig sigs}, inOrder env keys (sig :: sigs) = true → inOrder env keys sigs = true)
    {sigs : List Bytes} (key : Bytes) (matched : inOrder env keys sigs = true) :
    inOrder env (key :: keys) sigs = true := by
  cases sigs with
  | nil => rfl
  | cons sig sigs =>
    rw [inOrder]
    split
    · exact tail matched
    · exact matched

/-- Without their first one signatures are still accepted in order. -/
theorem inOrder_tail {keys sigs : List Bytes} {sig : Bytes}
    (matched : inOrder env keys (sig :: sigs) = true) : inOrder env keys sigs = true := by
  induction keys generalizing sig sigs with
  | nil => cases matched
  | cons key keys ih =>
    refine inOrder_cons_of_tail ih key ?_
    rw [inOrder] at matched
    split at matched
    · exact matched
    · exact ih matched

/-- Keys are tried in order and the first that fits is taken, but one more key does no harm. -/
theorem inOrder_cons {keys sigs : List Bytes} (key : Bytes)
    (matched : inOrder env keys sigs = true) : inOrder env (key :: keys) sigs = true :=
  inOrder_cons_of_tail inOrder_tail key matched

theorem inOrder_nil_cons {sigs : List Bytes} (refused : ∀ key, env.accepts key [] = false)
    (keys : List Bytes) : inOrder env keys ([] :: sigs) = false := by
  induction keys with
  | nil => rfl
  | cons key keys ih =>
    rw [inOrder, refused, if_neg Bool.false_ne_true]
    exact ih

theorem popCounted_append {n : Nat} {xs : List Bytes} (size : xs.length = n)
    (small : n < 0x80000000) (below : Stack) :
    popCounted (ScriptNumber.encode n :: (xs ++ below)) = some (xs, below) := by
  have range : (0 : Int) ≤ n ∧ (n : Int) ≤ (xs ++ below).length := by
    rw [List.length_append]
    omega
  simp only [popCounted, operand?_encode small, if_pos range, Int.toNat_natCast]
  rw [List.take_left' size, List.drop_left' size]

theorem leads_keys {keys : List Key} {ds : List Bytes}
    (known : keys.map Key.bytes? = ds.map some) (st : Stack) :
    Leads env (keys.map .key) st (ds.reverse ++ st) := by
  induction keys generalizing ds st with
  | nil =>
    obtain rfl : ds = [] := by simpa using known
    exact .nil
  | cons key keys ih =>
    cases ds with
    | nil => cases known
    | cons d ds =>
      obtain ⟨first, others⟩ := List.cons.inj known
      rw [List.reverse_cons, List.append_assoc]
      exact .cons (.push first) (ih others (d :: st))

/-! ## Lock times -/

/-- A lock time that has come is left on the stack. -/
theorem leads_lock {o : Opcode} {passes : Nat → Bool} {n : Nat} (st : Stack)
    (plain : isPlain o = true) (standard : ∀ st, isStandard env st o = true)
    (checks : ∀ st alt, perform env o st alt = (checkLock passes st).map fun st => (st, alt))
    (small : n < 2 ^ 32) (passed : passes n = true) :
    Leads env [.number n, .op o] st (ScriptNumber.encode n :: st) := by
  have number := number?_of_length_le (ScriptNumber.length_encode_le small)
  refine .cons (.push rfl) (.op plain (standard _) fun _ => ?_)
  rw [checks, checkLock, number]
  simp [passed]

/-! ## Values by base -/

/-- The fragment takes `w` from the stack and comes to the value `v`. A V comes to none, a W works
below one element and puts the value on either side of it, and what a K comes to is the value once
the signature is checked. -/
def Yields (env : Environment) (f : Fragment) : Base → Stack → Bytes → Prop
  | .B, w, v => ∀ st, Leads env f.words (w ++ st) (v :: st)
  | .V, w, _ => ∀ st, Leads env f.words (w ++ st) st
  | .K, w, v => ∃ key sig, v = flag (env.accepts key sig) ∧
      (env.accepts key sig = true ∨ sig = []) ∧
      ∀ st, Leads env f.words (w ++ st) (key :: sig :: st)
  | .W, w, v => (∀ d st, Leads env f.words (d :: (w ++ st)) (v :: d :: st)) ∨
      ∀ d st, Leads env f.words (d :: (w ++ st)) (d :: v :: st)
  | .other _, _, _ => False

namespace Yields

/-- A fragment that does what a part of it does, after taking more from the stack. -/
theorem of_part (inner : Yields env x b w v) (notW : b ≠ .W)
    (leads : ∀ st st', Leads env x.words (w ++ st) st' → Leads env f.words (u ++ st) st') :
    Yields env f b u v := by
  cases b with
  | B => exact fun st => leads _ _ (inner st)
  | V => exact fun st => leads _ _ (inner st)
  | K =>
    obtain ⟨key, sig, value, checked, inner⟩ := inner
    exact ⟨key, sig, value, checked, fun st => leads _ _ (inner st)⟩
  | W => exact absurd rfl notW
  | other code => exact inner

/-! ## Leaves -/

theorem zero : Yields env (.leaf .zero) .B [] [] := fun _ => .push rfl

theorem one : Yields env (.leaf .one) .B [] [1] := fun _ => .push rfl

theorem pk {k : Key} {d sig : Bytes} (known : k.bytes? = some d)
    (checked : env.accepts d sig = true ∨ sig = []) :
    Yields env (.leaf (.pk k)) .K [sig] (flag (env.accepts d sig)) :=
  ⟨d, sig, rfl, checked, fun _ => .push known⟩

theorem pkHash {hash : Digest 20} {d sig : Bytes} (commits : env.digest .hash160 d = hash)
    (checked : env.accepts d sig = true ∨ sig = []) :
    Yields env (.leaf (.pkHash hash)) .K [d, sig] (flag (env.accepts d sig)) := by
  refine ⟨d, sig, rfl, checked, fun st => ?_⟩
  have hashed : Leads env [.op .hash160] (d :: d :: sig :: st) (hash.bytes :: d :: sig :: st) := by
    rw [← commits]
    exact .hash (f := .hash160)
  rw [Fragment.words_pkHash]
  exact .cons .dup (.cons hashed (.cons (.push rfl) .equalVerify))

theorem after {lock : UInt32} (passed : env.after lock.toNat = true) :
    Yields env (.leaf (.after lock)) .B [] (ScriptNumber.encode lock.toNat) :=
  fun st => leads_lock st rfl (fun _ => rfl) (fun _ _ => rfl) lock.toNat_lt passed

theorem older {lock : UInt32} (passed : env.older lock.toNat = true) :
    Yields env (.leaf (.older lock)) .B [] (ScriptNumber.encode lock.toNat) :=
  fun st => leads_lock st rfl (fun _ => rfl) (fun _ _ => rfl) lock.toNat_lt passed

theorem hashLock {g : HashFunction} {image : Digest g.width} {d : Bytes} (size : d.length = 32) :
    Yields env (.leaf (.hashLock g image)) .B [d] (flag (env.digest g d = image)) := by
  intro st
  rw [Fragment.words_hashLock, ← flag_bytes_eq]
  refine .cons .size (.cons (.push rfl) ?_)
  rw [size]
  exact .append .equalVerify (.cons .hash (.cons (.push rfl) .equal))

theorem multi {k : Int} {keys : List Key} {ds sigs : List Bytes}
    (known : keys.map Key.bytes? = ds.map some) (enough : sigs.length = k.toNat)
    (fits : k.toNat ≤ keys.length) (small : keys.length < 0x80000000)
    (checked : inOrder env ds.reverse sigs = true ∨ ∀ sig ∈ sigs, sig = []) :
    Yields env (.leaf (.multi k keys)) .B (sigs ++ [[]])
      (flag (inOrder env ds.reverse sigs)) := by
  intro st
  have size : ds.reverse.length = keys.length := by
    rw [List.length_reverse]
    simpa using congrArg List.length known.symm
  have popped := popCounted_append size small
    (ScriptNumber.encode k.toNat :: (sigs ++ [] :: st))
  have popped' := popCounted_append enough (by omega) ([] :: st)
  rw [Fragment.words_multi, List.append_assoc]
  refine .cons (.push rfl) (.append (leads_keys known _) (.cons (.push rfl) (.op rfl ?_ ?_)))
  · simpa [isStandard, popped, popped'] using checked
  · intro alt
    have few : sigs.length ≤ ds.length := by
      rw [List.length_reverse] at size
      omega
    simp [perform, checkMultiSig, popped, popped', few]

/-! ## Wrappers -/

theorem alt (inner : Yields env x .B w v) : Yields env (.wrap .alt x) .W w v := by
  refine .inr fun d st => ?_
  rw [Fragment.words_alt]
  exact .aside (inner st)

theorem swap (inner : Yields env x .B [a] v) : Yields env (.wrap .swap x) .W [a] v := by
  refine .inl fun d st => ?_
  rw [Fragment.words_swap]
  exact .cons .swap (inner (d :: st))

theorem check (inner : Yields env x .K w v) : Yields env (.wrap .check x) .B w v := by
  obtain ⟨key, sig, rfl, checked, inner⟩ := inner
  intro st
  rw [Fragment.words_check]
  exact .append (inner st) (.checkSig checked)

theorem dupIf (inner : Yields env x .V [] v) : Yields env (.wrap .dupIf x) .B [[1]] [1] := by
  intro st
  rw [Fragment.words_dupIf]
  exact .cons .dup (.taken .ifOp (inner ([1] :: st)))

theorem dupIfNot : Yields env (.wrap .dupIf x) .B [[]] [] := by
  intro st
  rw [Fragment.words_dupIf]
  exact .cons .dup (.untaken .ifOp (closed_words x))

theorem verify (inner : Yields env x .B w a) (set : isTrue a = true) :
    Yields env (.wrap .verify x) .V w v := by
  intro st
  rw [Fragment.words_verify]
  exact .append (inner st) (.verify set)

theorem nonZero (inner : Yields env x .B (a :: w) v) (nonempty : a ≠ [])
    (short : a.length < 0x80000000) : Yields env (.wrap .nonZero x) .B (a :: w) v := by
  intro st
  have positive : flag (((a.length : Int) ≠ 0)) = flag true := by
    simp [nonempty]
  have sized : Leads env [.op .zeroNotEqual] (ScriptNumber.encode a.length :: a :: (w ++ st))
      (flag true :: a :: (w ++ st)) := by
    rw [← positive]
    exact .zeroNotEqual (operand?_encode short)
  rw [Fragment.words_nonZero]
  exact .cons .size (.cons sized (.taken .ifOp (inner st)))

theorem nonZeroNot : Yields env (.wrap .nonZero x) .B [[]] [] := by
  intro st
  rw [Fragment.words_nonZero]
  exact .cons .size (.cons (.zeroNotEqual rfl) (.untaken .ifOp (closed_words x)))

theorem zeroNotEqual {n : Int} (inner : Yields env x .B w a) (read : operand? a = some n) :
    Yields env (.wrap .zeroNotEqual x) .B w (flag (n ≠ 0)) := by
  intro st
  rw [Fragment.words_zeroNotEqual]
  exact .append (inner st) (.zeroNotEqual read)

/-! ## Combinations -/

/-- An arithmetic opcode after a W does not depend on the side on which the value was put. -/
theorem leads_operands {o : Opcode} {g : Int → Int → Bytes} {c : Bytes} {n k : Int} {st : Stack}
    (below : Yields env y .W w c) (plain : isPlain o = true)
    (standard : ∀ st, isStandard env st o = true)
    (acts : ∀ v w below alt, perform env o (v :: w :: below) alt
      = (operand? v).bind fun n => (operand? w).map fun k => (g k n :: below, alt))
    (comm : ∀ n k, g n k = g k n) (read : operand? a = some n) (read' : operand? c = some k) :
    Leads env (y.words ++ [.op o]) (a :: (w ++ st)) (g n k :: st) := by
  rcases below with first | second
  · refine .append (first a st) (.op plain (standard _) fun alt => ?_)
    rw [acts, read, read']
    rfl
  · refine .append (second a st) (.op plain (standard _) fun alt => ?_)
    rw [acts, read, read', comm]
    rfl

theorem andV (first : Yields env x .V w a) (second : Yields env y b u v) (notW : b ≠ .W) :
    Yields env (.pair .andV x y) b (w ++ u) v := by
  refine second.of_part notW fun st st' leads => ?_
  rw [Fragment.words_andV, List.append_assoc]
  exact .append (first _) leads

theorem andB {c : Bytes} {n k : Int} (first : Yields env x .B w a) (second : Yields env y .W u c)
    (read : operand? a = some n) (read' : operand? c = some k) :
    Yields env (.pair .andB x y) .B (w ++ u) (flag (n ≠ 0 ∧ k ≠ 0)) := by
  intro st
  rw [Fragment.words_andB, List.append_assoc]
  exact .append (first _) (leads_operands (g := fun n k => flag (n ≠ 0 ∧ k ≠ 0)) second rfl
    (fun _ => rfl) (fun _ _ _ _ => rfl) (fun _ _ => by simp only [and_comm]) read read')

theorem orB {c : Bytes} {n k : Int} (first : Yields env x .B w a) (second : Yields env z .W u c)
    (read : operand? a = some n) (read' : operand? c = some k) :
    Yields env (.pair .orB x z) .B (w ++ u) (flag (n ≠ 0 ∨ k ≠ 0)) := by
  intro st
  rw [Fragment.words_orB, List.append_assoc]
  exact .append (first _) (leads_operands (g := fun n k => flag (n ≠ 0 ∨ k ≠ 0)) second rfl
    (fun _ => rfl) (fun _ _ _ _ => rfl) (fun _ _ => by simp only [or_comm]) read read')

theorem orD (first : Yields env x .B w [1]) : Yields env (.pair .orD x z) .B w [1] := by
  intro st
  rw [Fragment.words_orD]
  exact .append (first st) (.cons .ifDup (.untaken .notIf (closed_words z)))

theorem orDElse (first : Yields env x .B w []) (second : Yields env z .B u v) :
    Yields env (.pair .orD x z) .B (w ++ u) v := by
  intro st
  rw [Fragment.words_orD, List.append_assoc]
  exact .append (first _) (.cons .ifDup (.taken .notIf (second st)))

theorem orC (first : Yields env x .B w [1]) : Yields env (.pair .orC x z) .V w v := by
  intro st
  rw [Fragment.words_orC]
  exact .append (first st) (.untaken .notIf (closed_words z))

theorem orCElse (first : Yields env x .B w []) (second : Yields env z .V u a) :
    Yields env (.pair .orC x z) .V (w ++ u) v := by
  intro st
  rw [Fragment.words_orC, List.append_assoc]
  exact .append (first _) (.taken .notIf (second st))

theorem orI (inner : Yields env x b w v) (notW : b ≠ .W) :
    Yields env (.pair .orI x z) b ([1] :: w) v := by
  refine inner.of_part notW fun st st' leads => ?_
  rw [Fragment.words_orI]
  exact .first .ifOp leads (closed_words z)

theorem orIElse (inner : Yields env z b w v) (notW : b ≠ .W) :
    Yields env (.pair .orI x z) b ([] :: w) v := by
  refine inner.of_part notW fun st st' leads => ?_
  rw [Fragment.words_orI]
  exact .second .ifOp (closed_words x) leads

theorem andor (first : Yields env x .B w [1]) (second : Yields env y b u v) (notW : b ≠ .W) :
    Yields env (.andor x y z) b (w ++ u) v := by
  refine second.of_part notW fun st st' leads => ?_
  rw [Fragment.words_andor, List.append_assoc]
  exact .append (first _) (.second .notIf (closed_words z) leads)

theorem andorElse (first : Yields env x .B w []) (second : Yields env z b u v) (notW : b ≠ .W) :
    Yields env (.andor x y z) b (w ++ u) v := by
  refine second.of_part notW fun st st' leads => ?_
  rw [Fragment.words_andor, List.append_assoc]
  exact .append (first _) (.first .notIf leads (closed_words y))

/-! ## Thresholds -/

/-- Of `j` fragments that come to 1, the first one of all is either one or not. -/
theorem exists_share {can : Fragment → Bool} {subs : List Fragment} {j : Nat}
    (enough : j ≤ (y :: subs).countP can) (sat : can y = true → ∃ w, Yields env y b w [1])
    (dissat : ∃ w, Yields env y b w []) :
    ∃ c w, Yields env y b w (ScriptNumber.encode c) ∧ c ≤ j ∧ j - c ≤ subs.countP can := by
  rw [List.countP_cons] at enough
  by_cases can' : can y = true ∧ j ≠ 0
  · obtain ⟨w, one⟩ := sat can'.1
    refine ⟨1, w, one, by omega, ?_⟩
    rw [if_pos can'.1] at enough
    omega
  · obtain ⟨w, zero⟩ := dissat
    refine ⟨0, w, zero, Nat.zero_le j, ?_⟩
    grind

/-- The parts of a threshold after the first can add up to any number of those that come to 1, if
each comes to nothing as well. -/
theorem exists_leads_sumWords {can : Fragment → Bool} {subs : List Fragment}
    (sat : ∀ y ∈ subs, can y = true → ∃ w, Yields env y .W w [1])
    (dissat : ∀ y ∈ subs, ∃ w, Yields env y .W w []) {j : Nat} (enough : j ≤ subs.countP can) :
    ∃ w, ∀ n st, n + j < 0x80000000 → Leads env (Fragment.sumWords false subs)
      (ScriptNumber.encode n :: (w ++ st)) (ScriptNumber.encode (n + j) :: st) := by
  -- The number to reach is shared out between the first part and the others.
  induction subs generalizing j with
  | nil =>
    obtain rfl : j = 0 := by simpa using enough
    exact ⟨[], fun n st _ => .nil⟩
  | cons y subs ih =>
    obtain ⟨c, u, first, le, rest⟩ : ∃ c u, Yields env y .W u (ScriptNumber.encode c) ∧ c ≤ j ∧
        j - c ≤ subs.countP can :=
      exists_share enough (sat y List.mem_cons_self) (dissat y List.mem_cons_self)
    obtain ⟨w, others⟩ := ih (fun z member => sat z (List.mem_cons_of_mem _ member))
      (fun z member => dissat z (List.mem_cons_of_mem _ member)) rest
    refine ⟨u ++ w, fun n st small => ?_⟩
    have added : Leads env (y.words ++ [.op .add]) (ScriptNumber.encode n :: (u ++ (w ++ st)))
        (ScriptNumber.encode (n + c) :: (w ++ st)) := by
      rw [← encodeInt_natCast (n + c), Int.natCast_add]
      exact leads_operands (g := fun n k => ScriptNumber.encodeInt (n + k)) first rfl
        (fun _ => rfl) (fun _ _ _ _ => rfl) (fun _ _ => by simp only [Int.add_comm])
        (operand?_encode (by omega)) (operand?_encode (by omega))
    have later := others (n + c) st (by omega)
    rw [show n + c + (j - c) = n + j by omega] at later
    rw [Fragment.sumWords, if_neg Bool.false_ne_true, List.append_assoc u]
    exact .append added later

theorem exists_thresh (k : Int) {can : Fragment → Bool} {subs : List Fragment}
    (sat : can x = true → ∃ w, Yields env x .B w [1]) (dissat : ∃ w, Yields env x .B w [])
    (sat' : ∀ y ∈ subs, can y = true → ∃ w, Yields env y .W w [1])
    (dissat' : ∀ y ∈ subs, ∃ w, Yields env y .W w []) {j : Nat}
    (enough : j ≤ (x :: subs).countP can) (small : j < 0x80000000) :
    ∃ w, Yields env (.thresh k (x :: subs)) .B w (flag (k.toNat = j)) := by
  obtain ⟨c, u, first, le, rest⟩ := exists_share enough sat dissat
  obtain ⟨w, others⟩ := exists_leads_sumWords sat' dissat' rest
  refine ⟨u ++ w, fun st => ?_⟩
  have sum := others c st (by omega)
  rw [Nat.add_sub_cancel' le] at sum
  have equal : flag (ScriptNumber.encode k.toNat = ScriptNumber.encode j) = flag (k.toNat = j) := by
    congr 2
    exact propext ⟨ScriptNumber.encode_injective, congrArg ScriptNumber.encode⟩
  rw [Fragment.words_thresh, Fragment.sumWords, if_pos rfl, List.append_nil, List.append_assoc,
    List.append_assoc, ← equal]
  exact .append (first _) (.append sum (.cons (.push rfl) .equal))

end Yields

end LockScript.Machine
