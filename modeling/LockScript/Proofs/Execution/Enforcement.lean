import LockScript.Spending.Satisfier
import LockScript.Proofs.Execution.Simulation
import LockScript.Proofs.Key.Reading

/-!
Scripts enforce their fragments.

A satisfier describes an environment if it has exactly the signatures, keys, preimages and lock
times that the machine would accept there. What a run shows to be accepted, such a satisfier
therefore has: a script that succeeds on any stack at all belongs to a fragment that the satisfier
can satisfy.
-/

namespace LockScript

open Machine

/-- The bytes that are hashed to commit to a key. -/
def Key.committed : Key → Bytes
  | .point p => p.bytes
  | .named name => name

/-- Some signature is accepted for the key. -/
def Environment.Signed (env : Environment) (k : Key) : Prop :=
  ∃ sig, env.accepts k.committed sig = true

/-- The key has the hash. -/
def Environment.Commits (env : Environment) (k : Key) (hash : Digest 20) : Prop :=
  env.digest .hash160 k.committed = hash

/-- The satisfier has what the machine accepts, and nothing else. -/
structure Satisfier.Describes (s : Satisfier) (env : Environment) : Prop where
  signature (k : Key) : (s.signature k).isSome = true ↔ env.Signed k
  keyForHash (hash : Digest 20) (known : ∃ k, env.Commits k hash ∧ env.Signed k) :
    ∃ k, s.keyForHash hash = some k ∧ env.Commits k hash ∧ env.Signed k
  preimage (f : HashFunction) (image : Digest f.width) :
    (s.preimage f image).isSome = true ↔ ∃ d : Bytes, d.length = 32 ∧ env.digest f d = image
  older (lock : UInt32) : s.older lock = true ↔ env.older lock.toNat = true
  after (lock : UInt32) : s.after lock = true ↔ env.after lock.toNat = true

namespace Machine

variable {env : Environment} {s : Satisfier} {st rest : Stack} {v : Bytes}

/-- Whether the value of a fragment of the given base shows that it was satisfied. For a K this
is up to the signature that is checked next. -/
def Shows (env : Environment) : Base → Bytes → Stack → Prop
  | .B, v, _ => isTrue v = true
  | .W, v, _ => isTrue v = true
  | .V, _, _ => True
  | .K, v, rest => ∃ sig below, rest = sig :: below ∧ env.accepts v sig = true
  | .other _, _, _ => False

/-! ## Leaves -/

theorem committed_of_bytes? {k : Key} {d : Bytes} (known : k.bytes? = some d) :
    k.committed = d := by
  cases k with
  | point p => exact Option.some.inj known
  | named name => cases known

/-- Signatures that are accepted in order are by as many different keys. -/
theorem length_le_countP_signs (describes : s.Describes env) {keys : List Key}
    {ds sigs : List Bytes} (known : keys.map Key.bytes? = ds.map some)
    (matched : inOrder env ds sigs = true) : sigs.length ≤ keys.countP s.signs := by
  induction keys generalizing ds sigs with
  | nil =>
    obtain rfl : ds = [] := by simpa using known
    cases sigs with
    | nil => exact Nat.le_refl 0
    | cons sig sigs => cases matched
  | cons key keys ih =>
    cases ds with
    | nil => cases known
    | cons d ds =>
      obtain ⟨first, others⟩ := List.cons.inj known
      cases sigs with
      | nil => exact Nat.zero_le _
      | cons sig sigs =>
        rw [inOrder] at matched
        split at matched
        · next accepted =>
          have signs : s.signs key = true :=
            (describes.signature key).2 ⟨sig, by rw [committed_of_bytes? first]; exact accepted⟩
          rw [List.countP_cons_of_pos signs]
          exact Nat.succ_le_succ (ih others matched)
        · exact (ih others matched).trans (List.sublist_cons_self key keys).countP_le

theorem canSatisfy_leaf (describes : s.Describes env) {l : Leaf}
    (evaluated : EvaluatesLeaf env l st v rest)
    (shown : Shows env (Correctness.ofLeaf l).base v rest) : l.canSatisfy s = true := by
  cases evaluated with
  | zero => cases shown
  | one => rfl
  | @pk k d st known =>
    obtain ⟨sig, below, -, accepted⟩ := shown
    exact (describes.signature k).2 ⟨sig, by rw [committed_of_bytes? known]; exact accepted⟩
  | @pkHash hash d st committed =>
    obtain ⟨sig, below, -, accepted⟩ := shown
    obtain ⟨k, found, -, signed⟩ :=
      describes.keyForHash hash ⟨.named v, committed, sig, accepted⟩
    rw [Leaf.canSatisfy, found]
    exact (describes.signature k).2 signed
  | @after lock st passes => exact (describes.after lock).2 passes
  | @older lock st passes => exact (describes.older lock).2 passes
  | @hashLock f image d st size =>
    have same : env.digest f d = image := by
      simpa [Shows, Correctness.ofLeaf, Correctness.hashLock] using shown
    exact (describes.preimage f image).2 ⟨d, size, same⟩
  | @multi k keys ds sigs dummy st known enough =>
    have matched : inOrder env ds.reverse sigs = true := by
      simpa [Shows, Correctness.ofLeaf, Correctness.multi] using shown
    have known' : keys.reverse.map Key.bytes? = ds.reverse.map some := by
      rw [List.map_reverse, List.map_reverse, known]
    have counted := length_le_countP_signs describes known' matched
    rw [List.countP_reverse] at counted
    rw [Leaf.canSatisfy, decide_eq_true_eq]
    omega

/-! ## Sums -/

/-- A value that is exactly 1 when true counts for no more than what it shows. -/
theorem decode_le_of_unit {a : Bytes} {p : Bool} (unit : isTrue a = true → a = [1] ∧ p = true) :
    0 ≤ ScriptNumber.decode a ∧ ScriptNumber.decode a ≤ if p then 1 else 0 := by
  cases truth : isTrue a with
  | false =>
    rw [decode_eq_zero truth]
    cases p <;> decide
  | true =>
    obtain ⟨rfl, rfl⟩ := unit truth
    decide

theorem decode_encodeInt {n : Int} (nonneg : 0 ≤ n) :
    ScriptNumber.decode (ScriptNumber.encodeInt n) = n := by
  obtain ⟨m, rfl⟩ := Int.eq_ofNat_of_zero_le nonneg
  rw [encodeInt_natCast, ScriptNumber.decode_encode]

/-- A sum grows by no more than one for each part that can be satisfied. -/
theorem decode_sum_le {subs : List Fragment} {a total : Bytes}
    (part : ∀ x ∈ subs, ∀ {a st b c mid}, Evaluates env x (a :: st) b (c :: mid) →
      c = a ∧ (isTrue b = true → b = [1] ∧ x.canSatisfy s = true))
    (nonneg : 0 ≤ ScriptNumber.decode a) (summed : EvaluatesSum env subs a st total rest) :
    ScriptNumber.decode total
      ≤ ScriptNumber.decode a + (Fragment.countSatisfiable s subs : Int) := by
  induction subs generalizing a st with
  | nil =>
    cases summed with
    | nil => simp [Fragment.countSatisfiable]
  | cons x subs ih =>
    cases summed with
    | cons evaluated read read' others =>
      obtain ⟨rfl, unit⟩ := part x List.mem_cons_self evaluated
      obtain ⟨nonneg', single⟩ := decode_le_of_unit unit
      rw [operand?_eq_some read] at nonneg ⊢
      rw [operand?_eq_some read'] at nonneg' single
      have grown := decode_encodeInt (Int.add_nonneg nonneg nonneg')
      have later := ih (fun y member => part y (List.mem_cons_of_mem _ member))
        (by rw [grown]; exact Int.add_nonneg nonneg nonneg') others
      rw [grown] at later
      rw [Fragment.countSatisfiable]
      by_cases can : x.canSatisfy s = true
      · rw [if_pos can] at single ⊢
        omega
      · rw [if_neg can] at single ⊢
        omega

/-! ## Fragments -/

theorem shows_of_isTrue {b : Base} (isB : b = .B) (set : isTrue v = true) : Shows env b v rest := by
  rw [isB]
  exact set

theorem of_isTrue_flag {p : Prop} [Decidable p] (set : isTrue (flag p) = true) : p := by
  rwa [isTrue_flag, decide_eq_true_eq] at set

/-- A W leaves the element that it was started below. -/
theorem eq_of_takes_W {x : Fragment} {fx : Facts Int64} {a b c : Bytes} {mid : Stack}
    (typed : x.facts? = .ok fx) (base : fx.type.corr.base = .W)
    (evaluated : Evaluates env x (a :: st) b (c :: mid)) : c = a := by
  have taken := evaluated.takes typed
  rw [base] at taken
  obtain ⟨d, above, below, same, same', -⟩ := taken
  cases same
  cases same'
  rfl

/-- A typed fragment whose value shows that it was satisfied can be satisfied. -/
theorem canSatisfy_of_evaluates (describes : s.Describes env) {f : Fragment} {facts : Facts Int64}
    (typed : f.facts? = .ok facts) (evaluated : Evaluates env f st v rest)
    (shown : Shows env facts.type.corr.base v rest) : f.canSatisfy s = true := by
  induction f generalizing facts st v rest with
  | leaf l =>
    obtain ⟨-, rfl, -⟩ := Fragment.facts?_leaf_iff.1 typed
    cases evaluated with
    | leaf evaluated =>
      rw [Fragment.canSatisfy]
      exact canSatisfy_leaf describes evaluated shown
  | wrap w x ih =>
    obtain ⟨fx, c, hx, made, rfl, -⟩ := Fragment.facts?_wrap_iff.1 typed
    rw [Fragment.canSatisfy]
    cases evaluated with
    | alt inner =>
      obtain ⟨base, rfl⟩ := Correctness.wrap_alt_iff.1 made
      exact ih hx inner (shows_of_isTrue base shown)
    | swap inner =>
      obtain ⟨base, -, rfl⟩ := Correctness.wrap_swap_iff.1 made
      exact ih hx inner (shows_of_isTrue base shown)
    | check inner =>
      obtain ⟨base, rfl⟩ := Correctness.wrap_check_iff.1 made
      have accepted : isTrue (flag _) = true := shown
      rw [isTrue_flag] at accepted
      refine ih hx inner ?_
      rw [base]
      exact ⟨_, _, rfl, accepted⟩
    | dupIf set inner =>
      obtain ⟨base, -, rfl⟩ := Correctness.wrap_dupIf_iff.1 made
      exact ih hx inner (by rw [base]; trivial)
    | dupIfNot clear =>
      obtain ⟨-, -, rfl⟩ := Correctness.wrap_dupIf_iff.1 made
      exact absurd (clear.symm.trans shown) (by decide)
    | verify inner set =>
      obtain ⟨base, rfl⟩ := Correctness.wrap_verify_iff.1 made
      exact ih hx inner (shows_of_isTrue base set)
    | nonZero nonempty inner =>
      obtain ⟨base, -, rfl⟩ := Correctness.wrap_nonZero_iff.1 made
      exact ih hx inner (shows_of_isTrue base shown)
    | nonZeroNot =>
      obtain ⟨-, -, rfl⟩ := Correctness.wrap_nonZero_iff.1 made
      cases shown
    | zeroNotEqual inner read =>
      obtain ⟨base, rfl⟩ := Correctness.wrap_zeroNotEqual_iff.1 made
      have nonzero := of_isTrue_flag shown
      exact ih hx inner (shows_of_isTrue base (isTrue_of_operand? read nonzero))
  | pair op x y ihx ihy =>
    obtain ⟨fx, fy, c, hx, hy, made, rfl, -⟩ := Fragment.facts?_pair_iff.1 typed
    rw [Fragment.canSatisfy]
    cases evaluated with
    | andV first second =>
      obtain ⟨base, -, rfl⟩ := Correctness.pair_andV_iff.1 made
      have left := ihx hx first (by rw [base]; trivial)
      have right := ihy hy second shown
      rw [left, right]
      rfl
    | andB first second read read' =>
      obtain ⟨base, base', rfl⟩ := Correctness.pair_andB_iff.1 made
      obtain ⟨nonzero, nonzero'⟩ := of_isTrue_flag shown
      obtain rfl := eq_of_takes_W hy base' second
      have left := ihx hx first (shows_of_isTrue base (isTrue_of_operand? read nonzero))
      have right := ihy hy second (by rw [base']; exact isTrue_of_operand? read' nonzero')
      rw [left, right]
      rfl
    | orB first second read read' =>
      obtain ⟨base, base', -, -, rfl⟩ := Correctness.pair_orB_iff.1 made
      obtain rfl := eq_of_takes_W hy base' second
      rcases of_isTrue_flag shown with nonzero | nonzero
      · have left := ihx hx first (shows_of_isTrue base (isTrue_of_operand? read nonzero))
        rw [left]
        rfl
      · have right := ihy hy second (by rw [base']; exact isTrue_of_operand? read' nonzero)
        rw [right]
        exact Bool.or_true _
    | orD first set =>
      obtain ⟨base, -, -, -, rfl⟩ := Correctness.pair_orD_iff.1 made
      rw [ihx hx first (shows_of_isTrue base set)]
      rfl
    | orDElse first clear second =>
      obtain ⟨-, base, -, -, rfl⟩ := Correctness.pair_orD_iff.1 made
      rw [ihy hy second (shows_of_isTrue base shown)]
      exact Bool.or_true _
    | orC first set =>
      obtain ⟨base, -, -, -, rfl⟩ := Correctness.pair_orC_iff.1 made
      rw [ihx hx first (shows_of_isTrue base set)]
      rfl
    | orCElse first clear second =>
      obtain ⟨-, base, -, -, rfl⟩ := Correctness.pair_orC_iff.1 made
      rw [ihy hy second (by rw [base]; trivial)]
      exact Bool.or_true _
    | orI set inner =>
      obtain ⟨-, -, rfl⟩ := Correctness.pair_orI_iff.1 made
      rw [ihx hx inner shown]
      rfl
    | orIElse clear inner =>
      obtain ⟨same, -, rfl⟩ := Correctness.pair_orI_iff.1 made
      rw [ihy hy inner (same ▸ shown)]
      exact Bool.or_true _
  | andor x y z ihx ihy ihz =>
    obtain ⟨fx, fy, fz, c, hx, hy, hz, made, rfl, -⟩ := Fragment.facts?_andor_iff.1 typed
    obtain ⟨base, same, -, -, -, rfl⟩ := Correctness.andor_iff.1 made
    rw [Fragment.canSatisfy]
    cases evaluated with
    | andor first set second =>
      rw [ihx hx first (shows_of_isTrue base set), ihy hy second shown]
      rfl
    | andorElse first clear second =>
      rw [ihz hz second (same ▸ shown), Bool.or_true]
  | thresh k subs ih =>
    obtain ⟨fs, each, -, made, rfl, -⟩ := Fragment.facts?_thresh_iff.1 typed
    cases evaluated with
    | @thresh k x subs st mid rest a total first others =>
      obtain ⟨fx, gs, hx, later, rfl⟩ := List.forall₂_cons_left_iff.1 each
      rw [List.map_cons, Correctness.checkSubs_zero_cons_iff] at made
      obtain ⟨⟨base, unit, -⟩, below⟩ := made
      obtain ⟨nonneg, single⟩ := decode_le_of_unit (p := x.canSatisfy s) fun set =>
        ⟨first.eq_one hx (by rw [base]; decide) unit set,
          ih x List.mem_cons_self hx first (shows_of_isTrue base set)⟩
      have grown := decode_sum_le (s := s) (fun y member a st b c mid evaluated => by
        obtain ⟨fy, among, hy⟩ := Fragment.exists_facts?_of_mem later member
        obtain ⟨base', unit', -⟩ := below _ (List.mem_map_of_mem among)
        refine ⟨eq_of_takes_W hy base' evaluated, fun set => ⟨?_, ?_⟩⟩
        · exact evaluated.eq_one hy (by rw [base']; decide) unit' set
        · exact ih y (List.mem_cons_of_mem _ member) hy evaluated (by rw [base']; exact set))
        nonneg others
      have reached : ScriptNumber.decode total = k.toNat := by
        rw [← of_isTrue_flag shown, ScriptNumber.decode_encode]
      rw [Fragment.canSatisfy, Fragment.countSatisfiable, decide_eq_true_eq]
      by_cases can : x.canSatisfy s = true
      · rw [if_pos can] at single ⊢
        omega
      · rw [if_neg can] at single ⊢
        omega

theorem canSatisfy_of_run (describes : s.Describes env) {m : Checked}
    (base : m.type.corr.base = .B) {t : State} (ran : run env m.fragment.words (start st) = some t)
    (succeeds : t.succeeds = true) : m.fragment.canSatisfy s = true := by
  rw [← List.append_nil m.fragment.words] at ran
  obtain ⟨v, rest, main, evaluated, placed, ran⟩ := simulated m.typed rfl ran
  have isB : m.facts.type.corr.base = .B := base
  rw [isB] at placed
  cases placed
  cases ran
  refine canSatisfy_of_evaluates describes m.typed evaluated (shows_of_isTrue isB ?_)
  simpa [State.succeeds] using succeeds

/-- A script enforces its fragment. If the instructions of a fragment of base B, or the bytes
they are written as, succeed on any stack, then the fragment can be satisfied by whoever has what
the machine accepts. A key that is not known has no bytes, and a run that comes to it fails. -/
theorem script_enforces (describes : s.Describes env) {m : Checked}
    (base : m.type.corr.base = .B) (st : Stack) {t : State} (succeeds : t.succeeds = true) :
    (run env (m.fragment.instructions false) (start st) = some t →
      m.fragment.canSatisfy s = true) ∧
    ∀ b, m.fragment.script = .ok b → execute env b st = some t →
      m.fragment.canSatisfy s = true := by
  constructor
  · intro ran
    rw [run_instructions] at ran
    exact canSatisfy_of_run describes base ran succeeds
  · intro b written ran
    rw [execute_script env m.typed written] at ran
    exact canSatisfy_of_run describes base ran succeeds

/-- `or_d(thresh_m(1,G),and_v(v:thresh(2,c:pk_h(H),s:c:pk(G),a:sha256(I)),older(144)))`. -/
def delayed : Checked where
  fragment := .pair .orD (.leaf (.multi 1 [.point .generator]))
    (.pair .andV
      (.wrap .verify (.thresh 2
        [.wrap .check (.leaf (.pkHash (.ofPrefix 20 Point.generator.bytes))),
          .wrap .swap (.wrap .check (.leaf (.pk (.point .generator)))),
          .wrap .alt (.leaf (.hashLock .sha256 (.ofPrefix 32 [1])))]))
      (.leaf (.older 144)))
  facts := ⟨⟨⟨.B, .any, false, false⟩, ⟨.none, true, false⟩⟩,
    ⟨.segwitOnly, 150, false, 20, some 21, none⟩⟩
  typed := by rfl

/-- The script of `delayed`. -/
def delayedScript : Bytes :=
  [0x51, 0x21] ++ Point.generator.bytes ++ [0x51, 0xAE, 0x73, 0x64, 0x76, 0xA9, 0x14]
    ++ Point.generator.bytes.take 20 ++ [0x88, 0xAC, 0x7C, 0x21] ++ Point.generator.bytes
    ++ [0xAC, 0x93, 0x6B, 0x82, 0x01, 0x20, 0x88, 0xA8, 0x20, 1] ++ List.replicate 31 0
    ++ [0x87, 0x6C, 0x93, 0x52, 0x88, 0x02, 0x90, 0x00, 0xB2, 0x68]

/-- Digests are the first bytes of a message, one signature is accepted for one key, and relative
lock times up to 144 have come. -/
def toyEnvironment : Environment where
  accepts key sig := key = Point.generator.bytes ∧ sig = [7]
  digest f d := .ofPrefix f.width d
  older n := n ≤ 144
  after _ := false

/-- What is accepted in `toyEnvironment`. -/
def toySatisfier : Satisfier where
  signature k := if k.committed = Point.generator.bytes then some [7] else none
  keyForHash _ := some (.point .generator)
  preimage f image := some (image.bytes ++ List.replicate (32 - f.width) 0)
  older lock := lock.toNat ≤ 144
  after _ := false

theorem toySatisfier_describes : toySatisfier.Describes toyEnvironment := by
  have signed (k : Key) : toyEnvironment.Signed k ↔ k.committed = Point.generator.bytes := by
    simp [Environment.Signed, toyEnvironment]
  refine ⟨fun k => ?_, ?_, fun f image => ?_, fun lock => Iff.rfl, fun lock => Iff.rfl⟩
  · rw [signed]
    by_cases known : k.committed = Point.generator.bytes <;> simp [toySatisfier, known]
  · rintro hash ⟨k, commits, accepted⟩
    refine ⟨.point .generator, rfl, ?_, (signed _).2 rfl⟩
    rw [signed] at accepted
    rw [Environment.Commits, accepted] at commits
    exact commits
  · refine ⟨fun _ => ⟨image.bytes ++ List.replicate (32 - f.width) 0, ?_, ?_⟩, fun _ => rfl⟩
    · cases f <;> simp [image.length_bytes, HashFunction.width]
    · apply Digest.ext_bytes
      simp [toyEnvironment, Digest.ofPrefix, image.length_bytes]

/-- Without a signature for `thresh_m`, but with one for the hash of the key and a preimage. -/
def delayedStack : Stack :=
  [[], [], Point.generator.bytes, [7], [], 1 :: List.replicate 31 0]

theorem script_enforces_delayed :
    delayed.fragment.script = .ok delayedScript ∧
    (∃ t, execute toyEnvironment delayedScript delayedStack = some t ∧ t.succeeds = true) ∧
    delayed.fragment.canSatisfy toySatisfier = true := by
  have written : delayed.fragment.script = .ok delayedScript := by rfl
  have ran : (execute toyEnvironment delayedScript delayedStack).any State.succeeds = true := by
    decide +kernel
  obtain ⟨t, executed, succeeds⟩ := (Option.any_eq_true _ _).1 ran
  exact ⟨written, ⟨t, executed, succeeds⟩,
    (script_enforces toySatisfier_describes rfl _ succeeds).2 _ written executed⟩

end Machine

end LockScript
