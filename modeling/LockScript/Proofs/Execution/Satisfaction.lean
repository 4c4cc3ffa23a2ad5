import LockScript.Proofs.Decoder.Rules
import LockScript.Proofs.Execution.Enforcement
import LockScript.Proofs.Execution.Witness

/-!
Fragments that can be satisfied have stacks that satisfy them.

Where a satisfier has only what the machine accepts, its secrets make up a stack on which the script
of the fragment succeeds. By induction on the fragment there is a stack that
satisfies each part that can be satisfied (`satisfied`), and one that dissatisfies each part whose
type says that it can be dissatisfied (`dissatisfied`).

A lock time stays on the stack as the value of its fragment. It may have 32 bits, but the operands
of arithmetic opcodes have no more than 31, so a lock time that such an opcode would take
(`Fragment.lockOperands`) has to be smaller. Otherwise what seems to be satisfiable may have no
satisfaction at all.
-/

namespace LockScript

open Machine

/-! ## Lock times as operands -/

namespace Fragment

/-- The lock times that a fragment may leave as its value. -/
def lockValues : Fragment → List UInt32
  | .leaf (.after lock) => [lock]
  | .leaf (.older lock) => [lock]
  | .leaf _ => []
  | .wrap .alt x => x.lockValues
  | .wrap .swap x => x.lockValues
  | .wrap .nonZero x => x.lockValues
  | .wrap _ _ => []
  | .pair .andV _ y => y.lockValues
  | .pair .orD _ z => z.lockValues
  | .pair .orI x z => x.lockValues ++ z.lockValues
  | .pair _ _ _ => []
  | .andor _ y z => y.lockValues ++ z.lockValues
  | .thresh _ _ => []

mutual

/-- The lock times that an arithmetic opcode may come to take as an operand. A threshold adds units
only, which are not lock times. -/
def lockOperands : Fragment → List UInt32
  | .leaf _ => []
  | .wrap .zeroNotEqual x => x.lockValues ++ x.lockOperands
  | .wrap _ x => x.lockOperands
  | .pair .andB x y => (x.lockValues ++ y.lockValues) ++ (x.lockOperands ++ y.lockOperands)
  | .pair .orB x z => (x.lockValues ++ z.lockValues) ++ (x.lockOperands ++ z.lockOperands)
  | .pair _ x y => x.lockOperands ++ y.lockOperands
  | .andor x y z => x.lockOperands ++ (y.lockOperands ++ z.lockOperands)
  | .thresh _ subs => lockOperandsOf subs

/-- The operands of several fragments in order. -/
def lockOperandsOf : List Fragment → List UInt32
  | [] => []
  | x :: rest => x.lockOperands ++ lockOperandsOf rest

end

theorem lockOperandsOf_eq_flatMap (subs : List Fragment) :
    lockOperandsOf subs = subs.flatMap lockOperands := by
  induction subs with
  | nil => rfl
  | cons x rest ih => rw [lockOperandsOf, ih, List.flatMap_cons]

/-- The operands of a part are among those of the whole. -/
theorem lockOperands_subset {f x : Fragment} (child : x ∈ f.children) :
    x.lockOperands ⊆ f.lockOperands := by
  cases f with
  | leaf l => cases child
  | wrap w y =>
    obtain rfl := List.mem_singleton.1 child
    cases w <;> simp [lockOperands]
  | pair op y z =>
    simp only [children, List.mem_cons, List.not_mem_nil, or_false] at child
    rcases child with rfl | rfl <;> cases op <;> intro lock <;> simp +contextual [lockOperands]
  | andor y z t =>
    simp only [children, List.mem_cons, List.not_mem_nil, or_false] at child
    rcases child with rfl | rfl | rfl <;> intro lock <;> simp +contextual [lockOperands]
  | thresh k subs =>
    intro lock member
    rw [lockOperands, lockOperandsOf_eq_flatMap]
    exact List.mem_flatMap.2 ⟨x, child, member⟩

end Fragment

/-! ## What has to be there -/

/-- An element that SIZE and 0NOTEQUAL together find not to be empty. -/
def Machine.IsFilled (d : Bytes) : Prop := d ≠ [] ∧ d.length < 0x80000000

/-- Keys and signatures that are accepted are not empty, and not out of all proportion. -/
structure Environment.Usual (env : Environment) : Prop where
  key {key sig : Bytes} : env.accepts key sig = true → IsFilled key
  signature {key sig : Bytes} : env.accepts key sig = true → IsFilled sig

theorem Environment.Usual.refuses {env : Environment} (usual : env.Usual) (key : Bytes) :
    env.accepts key [] = false := by
  by_contra accepted
  exact (usual.signature (Bool.not_eq_false _ ▸ accepted)).1 rfl

/-- The satisfier describes the environment, and every key that it knows for a hash has the hash. -/
structure Satisfier.Mirrors (s : Satisfier) (env : Environment) : Prop extends s.Describes env where
  honest {hash : Digest 20} {k : Key} : s.keyForHash hash = some k → env.Commits k hash

/-- What it takes to run the script of a fragment to its end, whichever parts of it are satisfied:
keys that are known, numbers that are operands, and for each leaf something to fail it with. -/
structure Fragment.Equipped (env : Environment) (f : Fragment) : Prop where
  known : ∀ w ∈ f.words, w.missingKey? = none
  short : f.words.length < 0x80000000
  operands : ∀ lock ∈ f.lockOperands, lock.toNat < 0x80000000
  committed : ∀ hash, .pkHash hash ∈ f.leaves → ∃ k, env.Commits k hash
  failing : ∀ g image, .hashLock g image ∈ f.leaves →
    ∃ d : Bytes, d.length = 32 ∧ env.digest g d ≠ image

theorem Fragment.Equipped.part {env : Environment} {f x : Fragment} (equipped : f.Equipped env)
    (child : x ∈ f.children) : x.Equipped env := by
  have among := words_sublist child
  have leaves := leaves_subset child
  exact ⟨fun w member => equipped.known w (among.subset member),
    Nat.lt_of_le_of_lt among.length_le equipped.short,
    fun lock member => equipped.operands lock (lockOperands_subset child member),
    fun hash member => equipped.committed hash (leaves member),
    fun g image member => equipped.failing g image (leaves member)⟩

theorem Key.bytes?_of_missingKey? {k : Key} (known : (Instruction.key k).missingKey? = none) :
    k.bytes? = some k.committed := by
  obtain ⟨p, rfl⟩ := Fragment.exists_point_of_missingKey? known
  rfl

theorem Fragment.Equipped.multi {env : Environment} {k : Int} {keys : List Key}
    (equipped : (Fragment.leaf (.multi k keys)).Equipped env) :
    keys.map Key.bytes? = (keys.map Key.committed).map some ∧ keys.length < 0x80000000 := by
  have known := equipped.known
  have short := equipped.short
  rw [words_multi] at known short
  simp only [List.length_cons, List.length_append, List.length_map] at short
  refine ⟨?_, by omega⟩
  rw [List.map_map]
  refine List.map_congr_left fun key member => Key.bytes?_of_missingKey? (known (.key key) ?_)
  exact List.mem_cons_of_mem _ (List.mem_append_left _ (List.mem_map_of_mem member))

theorem Fragment.Equipped.toNat_lt {env : Environment} {k : Int} {subs : List Fragment}
    {facts : Facts Int64} (equipped : (Fragment.thresh k subs).Equipped env)
    (typed : (Fragment.thresh k subs).facts? = .ok facts) : k.toNat < 0x80000000 := by
  obtain ⟨fs, each, checked, -⟩ := facts?_thresh_iff.1 typed
  have range := Facts.checkThreshold_iff.1 checked
  have length := each.length_eq
  have words := length_sumWords true subs
  have short := equipped.short
  rw [words_thresh, List.length_append] at short
  simp only [List.length_cons, Bool.toNat_true] at short words
  omega

/-- A lock time that passed the check is not 0. -/
theorem Facts.toNat_ne_zero_of_checked {lock : UInt32}
    (checked : checkLeaf (.after lock) = .ok ()) : lock.toNat ≠ 0 := by
  intro zero
  rw [checkLeaf, if_pos (UInt32.toNat_inj.1 zero)] at checked
  cases checked

/-- The stack begins as an input says that satisfactions do. -/
def Input.Opens : Input → Stack → Prop
  | .oneNonZero, w => ∃ d rest, w = d :: rest ∧ IsFilled d
  | .anyNonZero, w => ∃ d rest, w = d :: rest ∧ IsFilled d
  | _, _ => True

namespace Input

variable {i j k : Input} {w u : Stack}

theorem Opens.andThen (first : i.Opens w) (none : i = .zero → w = []) (second : j.Opens u) :
    (i.andThen j).Opens (w ++ u) := by
  have front (filled : ∃ d rest, w = d :: rest ∧ IsFilled d) :
      ∃ d rest, w ++ u = d :: rest ∧ IsFilled d := by
    obtain ⟨d, rest, rfl, filled⟩ := filled
    exact ⟨d, rest ++ u, rfl, filled⟩
  -- What the second part needs comes first only if the first part takes nothing.
  cases i with
  | zero =>
    rw [none rfl, List.nil_append]
    cases j <;> exact second
  | oneNonZero => cases j <;> exact front first
  | anyNonZero => exact front first
  | one => cases j <;> trivial
  | any => trivial
  | other code => trivial

theorem opens_both : (i.both j).Opens w := by
  unfold Input.both
  split_ifs <;> trivial

theorem opens_orElse : (i.orElse j).Opens w := by
  unfold Input.orElse
  split_ifs <;> trivial

theorem opens_either : (if i = .zero ∧ j = .zero then Input.one else .any).Opens w := by
  split_ifs <;> trivial

theorem opens_branch : (i.branch j k).Opens w := by
  unfold Input.branch
  split_ifs <;> trivial

theorem opens_all (is : List Input) : (Input.all is).Opens w := by
  unfold Input.all
  split <;> trivial

end Input

namespace Machine

variable {env : Environment} {s : Satisfier} {f x y z : Fragment} {facts fx fy fz : Facts Int64}
  {c : Correctness} {w u : Stack} {v : Bytes} {unit : Bool}

/-! ## What satisfied fragments leave -/

/-- The value of a satisfied fragment: 1, or a lock time if the fragment is no unit. -/
inductive Resting (f : Fragment) (unit : Bool) : Bytes → Prop
  | one : Resting f unit [1]
  | lock {lock : UInt32} (notUnit : unit = false) (nonzero : lock.toNat ≠ 0)
    (among : lock ∈ f.lockValues) : Resting f unit (ScriptNumber.encode lock.toNat)

namespace Resting

theorem isTrue (resting : Resting f unit v) : isTrue v = true := by
  cases resting with
  | one => rfl
  | lock notUnit nonzero among => exact isTrue_encode nonzero

theorem eq_one (resting : Resting f true v) : v = [1] := by
  cases resting with
  | one => rfl
  | lock notUnit => cases notUnit

theorem mono (resting : Resting x unit v) {unit' : Bool} (units : unit' = true → unit = true)
    (among : x.lockValues ⊆ f.lockValues) : Resting f unit' v := by
  cases resting with
  | one => exact .one
  | lock notUnit nonzero member =>
    refine .lock ?_ nonzero (among member)
    cases unit' with
    | false => rfl
    | true => exact absurd ((units rfl).symm.trans notUnit) (by decide)

/-- The value is an operand other than 0, if the lock times are. -/
theorem exists_operand (resting : Resting f unit v)
    (small : ∀ lock ∈ f.lockValues, lock.toNat < 0x80000000) :
    ∃ n : Int, operand? v = some n ∧ n ≠ 0 := by
  cases resting with
  | one => exact ⟨1, rfl, by decide⟩
  | @lock lock notUnit nonzero among =>
    exact ⟨lock.toNat, operand?_encode (small lock among), by omega⟩

end Resting

/-- There is a stack that satisfies the fragment, which is of the given type. -/
def Satisfied (env : Environment) (f : Fragment) (c : Correctness) : Prop :=
  ∃ w v, Yields env f c.base w v ∧ Resting f c.unit v ∧ c.input.Opens w

/-- There is a stack that dissatisfies the fragment, which is of the given type. -/
def Dissatisfied (env : Environment) (f : Fragment) (c : Correctness) : Prop :=
  ∃ w, Yields env f c.base w []

theorem Satisfied.yields {b : Base} (satisfied : Satisfied env f c) (base : c.base = b)
    (unit : c.unit = true) : ∃ w, Yields env f b w [1] := by
  obtain ⟨w, v, yields, resting, -⟩ := satisfied
  rw [unit] at resting
  obtain rfl := resting.eq_one
  exact ⟨w, base ▸ yields⟩

theorem Dissatisfied.yields {b : Base} (dissatisfied : Dissatisfied env f c) (base : c.base = b) :
    ∃ w, Yields env f b w [] :=
  base ▸ dissatisfied

/-! ## What is taken from the stack -/

theorem Leads.exists_evaluates {st st' : Stack} (typed : f.facts? = .ok facts)
    (leads : Leads env f.words st st') :
    ∃ v rest, Evaluates env f st v rest ∧ Placed facts.type.corr.base v rest st' := by
  have ran := run_of_runStrictly (leads [] [] rfl)
  rw [← List.append_nil f.words] at ran
  obtain ⟨v, rest, main, evaluated, placed, ran⟩ := simulated typed rfl ran
  cases ran
  exact ⟨v, rest, evaluated, placed⟩

/-- A B or a V takes all of the stack that it needs. -/
theorem Yields.takes {b : Base} (yields : Yields env f b w v) (top : b = .B ∨ b = .V)
    (typed : f.facts? = .ok facts) (base : facts.type.corr.base = b) :
    facts.type.corr.input.Takes w [] := by
  rcases top with rfl | rfl
  all_goals
    obtain ⟨v', rest, evaluated, placed⟩ := (yields []).exists_evaluates typed
    have taken := evaluated.takes typed
    rw [base] at placed taken
    cases placed
    rwa [List.append_nil] at taken

theorem Yields.eq_nil {b : Base} (yields : Yields env f b w v) (top : b = .B ∨ b = .V)
    (typed : f.facts? = .ok facts) (base : facts.type.corr.base = b)
    (zero : facts.type.corr.input = .zero) : w = [] := by
  have taken := yields.takes top typed base
  rw [zero] at taken
  exact taken.symm

/-- What a K comes to is a truth value. -/
theorem Yields.eq_one (yields : Yields env f .K w v) (set : isTrue v = true) : v = [1] := by
  obtain ⟨key, sig, rfl, -⟩ := yields
  exact flag_eq_one set

/-! ## Leaves -/

theorem dissatisfied_leaf {l : Leaf} (usual : env.Usual) (equipped : (Fragment.leaf l).Equipped env)
    (checked : Facts.checkLeaf l = .ok ()) (can : (Correctness.ofLeaf l).dissatisfiable = true) :
    Dissatisfied env (.leaf l) (.ofLeaf l) := by
  cases l with
  | zero => exact ⟨[], .zero⟩
  | one => cases can
  | pk k =>
    have known := Key.bytes?_of_missingKey? (equipped.known (.key k) List.mem_cons_self)
    have refused : Yields env (.leaf (.pk k)) .K [[]] (flag (env.accepts k.committed [])) :=
      .pk known (.inr rfl)
    rw [usual.refuses] at refused
    exact ⟨_, refused⟩
  | pkHash hash =>
    obtain ⟨k, commits⟩ := equipped.committed hash List.mem_cons_self
    have refused : Yields env (.leaf (.pkHash hash)) .K [k.committed, []]
        (flag (env.accepts k.committed [])) := .pkHash commits (.inr rfl)
    rw [usual.refuses] at refused
    exact ⟨_, refused⟩
  | after lock => cases can
  | older lock => cases can
  | hashLock g image =>
    obtain ⟨d, size, different⟩ := equipped.failing g image List.mem_cons_self
    have failed : Yields env (.leaf (.hashLock g image)) .B [d]
        (flag (env.digest g d = image)) := .hashLock size
    rw [decide_eq_false different] at failed
    exact ⟨_, failed⟩
  | multi k keys =>
    -- Empty signatures only, as many as are asked for; the first of them fits no key.
    have range := Facts.checkThreshold_iff.1 checked
    obtain ⟨known, small⟩ := equipped.multi
    obtain ⟨n, more⟩ : ∃ n, k.toNat = n + 1 := ⟨k.toNat - 1, by omega⟩
    have failed : Yields env (.leaf (.multi k keys)) .B (List.replicate k.toNat [] ++ [[]])
        (flag (inOrder env (keys.map Key.committed).reverse (List.replicate k.toNat []))) :=
      .multi known List.length_replicate (by omega) small
        (.inr fun sig member => List.eq_of_mem_replicate member)
    rw [more, List.replicate_succ, inOrder_nil_cons usual.refuses] at failed
    exact ⟨_, failed⟩

/-- As many signatures as wanted are accepted in order, if there are as many keys to sign with. -/
theorem exists_inOrder (mirrors : s.Mirrors env) (usual : env.Usual) {keys : List Key} {j : Nat}
    (enough : j ≤ keys.countP s.signs) :
    ∃ sigs, sigs.length = j ∧ inOrder env (keys.map Key.committed) sigs = true ∧
      ∀ sig ∈ sigs, IsFilled sig := by
  induction keys generalizing j with
  | nil =>
    obtain rfl : j = 0 := by simpa using enough
    exact ⟨[], rfl, rfl, List.forall_mem_nil _⟩
  | cons key keys ih =>
    rw [List.countP_cons] at enough
    by_cases signed : s.signs key = true ∧ j ≠ 0
    · obtain ⟨sig, accepted⟩ := (mirrors.signature key).1 signed.1
      rw [if_pos signed.1] at enough
      obtain ⟨sigs, length, matched, filled⟩ := @ih (j - 1) (by omega)
      refine ⟨sig :: sigs, ?_, ?_, List.forall_mem_cons.2 ⟨usual.signature accepted, filled⟩⟩
      · rw [List.length_cons, length]
        omega
      · rw [List.map_cons, inOrder, if_pos accepted]
        exact matched
    · obtain ⟨sigs, length, matched, filled⟩ := @ih j (by grind)
      exact ⟨sigs, length, inOrder_cons _ matched, filled⟩

theorem satisfied_leaf {l : Leaf} (mirrors : s.Mirrors env) (usual : env.Usual)
    (equipped : (Fragment.leaf l).Equipped env) (checked : Facts.checkLeaf l = .ok ())
    (can : l.canSatisfy s = true) : Satisfied env (.leaf l) (.ofLeaf l) := by
  cases l with
  | zero => cases can
  | one => exact ⟨[], [1], .one, .one, trivial⟩
  | pk k =>
    obtain ⟨sig, accepted⟩ := (mirrors.signature k).1 can
    have known := Key.bytes?_of_missingKey? (equipped.known (.key k) List.mem_cons_self)
    have signed : Yields env (.leaf (.pk k)) .K [sig] (flag (env.accepts k.committed sig)) :=
      .pk known (.inl accepted)
    rw [accepted] at signed
    exact ⟨_, _, signed, .one, sig, [], rfl, usual.signature accepted⟩
  | pkHash hash =>
    rw [Leaf.canSatisfy] at can
    split at can
    · cases can
    · next k found =>
      obtain ⟨sig, accepted⟩ := (mirrors.signature k).1 can
      have signed : Yields env (.leaf (.pkHash hash)) .K [k.committed, sig]
          (flag (env.accepts k.committed sig)) := .pkHash (mirrors.honest found) (.inl accepted)
      rw [accepted] at signed
      exact ⟨_, _, signed, .one, k.committed, [sig], rfl, usual.key accepted⟩
  | after lock =>
    have nonzero := Facts.toNat_ne_zero_of_checked checked
    exact ⟨[], _, .after ((mirrors.after lock).1 can), .lock rfl nonzero List.mem_cons_self,
      trivial⟩
  | older lock =>
    have nonzero := Facts.toNat_ne_zero_of_checked checked
    exact ⟨[], _, .older ((mirrors.older lock).1 can), .lock rfl nonzero List.mem_cons_self,
      trivial⟩
  | hashLock g image =>
    obtain ⟨d, size, same⟩ := (mirrors.preimage g image).1 can
    have found : Yields env (.leaf (.hashLock g image)) .B [d]
        (flag (env.digest g d = image)) := .hashLock size
    rw [decide_eq_true same] at found
    refine ⟨_, _, found, .one, d, [], rfl, ?_, by omega⟩
    rintro rfl
    cases size
  | multi k keys =>
    have range := Facts.checkThreshold_iff.1 checked
    obtain ⟨known, small⟩ := equipped.multi
    -- The keys lie on the stack in reverse, and signatures are tried in that order.
    have enough : k.toNat ≤ keys.reverse.countP s.signs := by
      rw [Leaf.canSatisfy, decide_eq_true_eq] at can
      rw [List.countP_reverse]
      omega
    obtain ⟨sigs, length, matched, filled⟩ := exists_inOrder mirrors usual enough
    rw [List.map_reverse] at matched
    have signed : Yields env (.leaf (.multi k keys)) .B (sigs ++ [[]])
        (flag (inOrder env (keys.map Key.committed).reverse sigs)) :=
      .multi known length (by omega) small (.inl matched)
    rw [matched] at signed
    refine ⟨_, _, signed, .one, ?_⟩
    cases sigs with
    | nil => simp only [List.length_nil] at length; omega
    | cons sig sigs => exact ⟨sig, sigs ++ [[]], rfl, filled sig List.mem_cons_self⟩

/-! ## Dissatisfactions -/

theorem dissatisfied_wrap {w : Wrapper} (typed : x.facts? = .ok fx)
    (made : Correctness.wrap w fx.type.corr = .ok c) (can : c.dissatisfiable = true)
    (inner : fx.type.corr.dissatisfiable = true → Dissatisfied env x fx.type.corr) :
    Dissatisfied env (.wrap w x) c := by
  cases w with
  | alt =>
    obtain ⟨base, rfl⟩ := Correctness.wrap_alt_iff.1 made
    obtain ⟨w, yields⟩ := (inner can).yields base
    exact ⟨w, yields.alt⟩
  | swap =>
    obtain ⟨base, one, rfl⟩ := Correctness.wrap_swap_iff.1 made
    obtain ⟨w, yields⟩ := (inner can).yields base
    obtain ⟨a, rfl⟩ := Input.takes_of_isSubtype_one one (yields.takes (.inl rfl) typed base)
    exact ⟨[a], yields.swap⟩
  | check =>
    obtain ⟨base, rfl⟩ := Correctness.wrap_check_iff.1 made
    obtain ⟨w, yields⟩ := (inner can).yields base
    exact ⟨w, yields.check⟩
  | dupIf =>
    obtain ⟨-, -, rfl⟩ := Correctness.wrap_dupIf_iff.1 made
    exact ⟨[[]], .dupIfNot⟩
  | verify =>
    obtain ⟨-, rfl⟩ := Correctness.wrap_verify_iff.1 made
    cases can
  | nonZero =>
    obtain ⟨-, -, rfl⟩ := Correctness.wrap_nonZero_iff.1 made
    exact ⟨[[]], .nonZeroNot⟩
  | zeroNotEqual =>
    obtain ⟨base, rfl⟩ := Correctness.wrap_zeroNotEqual_iff.1 made
    obtain ⟨w, yields⟩ := (inner can).yields base
    exact ⟨w, yields.zeroNotEqual rfl⟩

theorem dissatisfied_pair {op : Combinator}
    (made : Correctness.pair op fx.type.corr fy.type.corr = .ok c) (can : c.dissatisfiable = true)
    (first : fx.type.corr.dissatisfiable = true → Dissatisfied env x fx.type.corr)
    (second : fy.type.corr.dissatisfiable = true → Dissatisfied env y fy.type.corr) :
    Dissatisfied env (.pair op x y) c := by
  cases op with
  | andV =>
    obtain ⟨-, -, rfl⟩ := Correctness.pair_andV_iff.1 made
    cases can
  | andB =>
    obtain ⟨base, base', rfl⟩ := Correctness.pair_andB_iff.1 made
    obtain ⟨w, left⟩ := (first (Bool.and_eq_true_iff.1 can).1).yields base
    obtain ⟨u, right⟩ := (second (Bool.and_eq_true_iff.1 can).2).yields base'
    exact ⟨w ++ u, left.andB right rfl rfl⟩
  | orB =>
    obtain ⟨base, base', dissat, dissat', rfl⟩ := Correctness.pair_orB_iff.1 made
    obtain ⟨w, left⟩ := (first dissat).yields base
    obtain ⟨u, right⟩ := (second dissat').yields base'
    exact ⟨w ++ u, left.orB right rfl rfl⟩
  | orD =>
    obtain ⟨base, base', dissat, -, rfl⟩ := Correctness.pair_orD_iff.1 made
    obtain ⟨w, left⟩ := (first dissat).yields base
    obtain ⟨u, right⟩ := (second can).yields base'
    exact ⟨w ++ u, left.orDElse right⟩
  | orC =>
    obtain ⟨-, -, -, -, rfl⟩ := Correctness.pair_orC_iff.1 made
    cases can
  | orI =>
    obtain ⟨same, notW, rfl⟩ := Correctness.pair_orI_iff.1 made
    rcases Bool.or_eq_true_iff.1 can with dissat | dissat
    · obtain ⟨w, left⟩ := first dissat
      exact ⟨[1] :: w, left.orI notW⟩
    · obtain ⟨w, right⟩ := (second dissat).yields same.symm
      exact ⟨[] :: w, right.orIElse notW⟩

theorem dissatisfied_andor
    (made : Correctness.andor fx.type.corr fy.type.corr fz.type.corr = .ok c)
    (can : c.dissatisfiable = true)
    (first : fx.type.corr.dissatisfiable = true → Dissatisfied env x fx.type.corr)
    (third : fz.type.corr.dissatisfiable = true → Dissatisfied env z fz.type.corr) :
    Dissatisfied env (.andor x y z) c := by
  obtain ⟨base, same, notW, dissat, -, rfl⟩ := Correctness.andor_iff.1 made
  obtain ⟨w, left⟩ := (first dissat).yields base
  obtain ⟨u, right⟩ := (third can).yields same.symm
  exact ⟨w ++ u, left.andorElse right notW⟩

/-- The parts of a threshold come to any number of those that can be satisfied. -/
theorem exists_thresh {k : Int} {subs : List Fragment} (can : Fragment → Bool)
    (typed : (Fragment.thresh k subs).facts? = .ok facts)
    (sat : ∀ x ∈ subs, ∀ fx : Facts Int64, x.facts? = .ok fx → can x = true →
      Satisfied env x fx.type.corr)
    (dissat : ∀ x ∈ subs, ∀ fx : Facts Int64, x.facts? = .ok fx →
      fx.type.corr.dissatisfiable = true → Dissatisfied env x fx.type.corr)
    {j : Nat} (enough : j ≤ subs.countP can) (small : j < 0x80000000) :
    ∃ w, Yields env (.thresh k subs) .B w (flag (k.toNat = j)) := by
  obtain ⟨fs, each, checked, made, rfl, -⟩ := Fragment.facts?_thresh_iff.1 typed
  cases each with
  | nil =>
    have range := Facts.checkThreshold_iff.1 checked
    exact absurd (Int.le_trans range.1 range.2) (by decide)
  | @cons x fx subs fs hx later =>
    rw [List.map_cons, Correctness.checkSubs_zero_cons_iff] at made
    obtain ⟨⟨base, unit, dissatisfiable⟩, below⟩ := made
    have typed' {y : Fragment} (member : y ∈ subs) : ∃ fy : Facts Int64, y.facts? = .ok fy ∧
        fy.type.corr.base = .W ∧ fy.type.corr.unit = true ∧
        fy.type.corr.dissatisfiable = true := by
      obtain ⟨fy, among, hy⟩ := Fragment.exists_facts?_of_mem later member
      exact ⟨fy, hy, below _ (List.mem_map_of_mem among)⟩
    refine Yields.exists_thresh k ?_ ?_ (fun y member can' => ?_) (fun y member => ?_) enough small
    · exact fun can' => (sat x List.mem_cons_self fx hx can').yields base unit
    · exact (dissat x List.mem_cons_self fx hx dissatisfiable).yields base
    · obtain ⟨fy, hy, base', unit', -⟩ := typed' member
      exact (sat y (List.mem_cons_of_mem _ member) fy hy can').yields base' unit'
    · obtain ⟨fy, hy, base', -, dissatisfiable'⟩ := typed' member
      exact (dissat y (List.mem_cons_of_mem _ member) fy hy dissatisfiable').yields base'

/-- What its type says can be dissatisfied has a stack that dissatisfies it. -/
theorem dissatisfied (usual : env.Usual) (typed : f.facts? = .ok facts)
    (equipped : f.Equipped env) (can : facts.type.corr.dissatisfiable = true) :
    Dissatisfied env f facts.type.corr := by
  induction f generalizing facts with
  | leaf l =>
    obtain ⟨checked, rfl, -⟩ := Fragment.facts?_leaf_iff.1 typed
    exact dissatisfied_leaf usual equipped checked can
  | wrap w x ih =>
    obtain ⟨fx, c, hx, made, rfl, -⟩ := Fragment.facts?_wrap_iff.1 typed
    exact dissatisfied_wrap hx made can (ih hx (equipped.part (by simp [Fragment.children])))
  | pair op x y ihx ihy =>
    obtain ⟨fx, fy, c, hx, hy, made, rfl, -⟩ := Fragment.facts?_pair_iff.1 typed
    exact dissatisfied_pair made can (ihx hx (equipped.part (by simp [Fragment.children])))
      (ihy hy (equipped.part (by simp [Fragment.children])))
  | andor x y z ihx ihy ihz =>
    obtain ⟨fx, fy, fz, c, hx, hy, hz, made, rfl, -⟩ := Fragment.facts?_andor_iff.1 typed
    exact dissatisfied_andor made can (ihx hx (equipped.part (by simp [Fragment.children])))
      (ihz hz (equipped.part (by simp [Fragment.children])))
  | thresh k subs ih =>
    obtain ⟨w, none⟩ := exists_thresh (fun _ => false) typed
      (fun _ _ _ _ never => absurd never Bool.false_ne_true)
      (fun x member fx hx can => ih x member hx (equipped.part member) can) (Nat.zero_le _)
      (by decide)
    obtain ⟨fs, -, checked, -, rfl, -⟩ := Fragment.facts?_thresh_iff.1 typed
    have range := Facts.checkThreshold_iff.1 checked
    rw [decide_eq_false (by omega)] at none
    exact ⟨w, none⟩

/-! ## Satisfactions -/

theorem satisfied_wrap {w : Wrapper} (typed : x.facts? = .ok fx)
    (made : Correctness.wrap w fx.type.corr = .ok c)
    (operands : ∀ lock ∈ (Fragment.wrap w x).lockOperands, lock.toNat < 0x80000000)
    (inner : Satisfied env x fx.type.corr) : Satisfied env (.wrap w x) c := by
  obtain ⟨u, v, yields, resting, opens⟩ := inner
  cases w with
  | alt =>
    obtain ⟨base, rfl⟩ := Correctness.wrap_alt_iff.1 made
    rw [base] at yields
    exact ⟨u, v, yields.alt, resting.mono id (List.Subset.refl _), trivial⟩
  | swap =>
    obtain ⟨base, one, rfl⟩ := Correctness.wrap_swap_iff.1 made
    rw [base] at yields
    obtain ⟨a, rfl⟩ := Input.takes_of_isSubtype_one one (yields.takes (.inl rfl) typed base)
    exact ⟨[a], v, yields.swap, resting.mono id (List.Subset.refl _), trivial⟩
  | check =>
    obtain ⟨base, rfl⟩ := Correctness.wrap_check_iff.1 made
    rw [base] at yields
    obtain rfl := yields.eq_one resting.isTrue
    exact ⟨u, [1], yields.check, .one, opens⟩
  | dupIf =>
    obtain ⟨base, zero, rfl⟩ := Correctness.wrap_dupIf_iff.1 made
    rw [base] at yields
    obtain rfl := yields.eq_nil (.inr rfl) typed base zero
    exact ⟨[[1]], [1], yields.dupIf, .one, [1], [], rfl, by decide, by decide⟩
  | verify =>
    obtain ⟨base, rfl⟩ := Correctness.wrap_verify_iff.1 made
    rw [base] at yields
    exact ⟨u, [1], yields.verify resting.isTrue, .one, opens⟩
  | nonZero =>
    obtain ⟨base, nonZero, rfl⟩ := Correctness.wrap_nonZero_iff.1 made
    rw [base] at yields
    obtain ⟨d, rest, rfl, nonempty, short⟩ : ∃ d rest, u = d :: rest ∧ IsFilled d := by
      rcases nonZero with input | input <;> rwa [input] at opens
    exact ⟨d :: rest, v, yields.nonZero nonempty short, resting.mono id (List.Subset.refl _), opens⟩
  | zeroNotEqual =>
    obtain ⟨base, rfl⟩ := Correctness.wrap_zeroNotEqual_iff.1 made
    rw [base] at yields
    obtain ⟨n, read, nonzero⟩ := resting.exists_operand fun lock member =>
      operands lock (List.mem_append_left _ member)
    have set := yields.zeroNotEqual read
    rw [decide_eq_true nonzero] at set
    exact ⟨u, [1], set, .one, opens⟩

theorem satisfied_pair {op : Combinator} (typed : x.facts? = .ok fx)
    (made : Correctness.pair op fx.type.corr fy.type.corr = .ok c)
    (operands : ∀ lock ∈ (Fragment.pair op x y).lockOperands, lock.toNat < 0x80000000)
    (first : x.canSatisfy s = true → Satisfied env x fx.type.corr)
    (notFirst : fx.type.corr.dissatisfiable = true → Dissatisfied env x fx.type.corr)
    (second : y.canSatisfy s = true → Satisfied env y fy.type.corr)
    (notSecond : fy.type.corr.dissatisfiable = true → Dissatisfied env y fy.type.corr)
    (can : op.canSatisfy (x.canSatisfy s) (y.canSatisfy s) = true) :
    Satisfied env (.pair op x y) c := by
  cases op with
  | andV =>
    obtain ⟨base, notW, rfl⟩ := Correctness.pair_andV_iff.1 made
    obtain ⟨w, a, left, -, opens⟩ := first (Bool.and_eq_true_iff.1 can).1
    obtain ⟨u, v, right, resting, opens'⟩ := second (Bool.and_eq_true_iff.1 can).2
    rw [base] at left
    exact ⟨w ++ u, v, left.andV right notW, resting.mono id (List.Subset.refl _),
      opens.andThen (left.eq_nil (.inr rfl) typed base) opens'⟩
  | andB =>
    obtain ⟨base, base', rfl⟩ := Correctness.pair_andB_iff.1 made
    obtain ⟨w, a, left, resting, opens⟩ := first (Bool.and_eq_true_iff.1 can).1
    obtain ⟨u, b, right, resting', opens'⟩ := second (Bool.and_eq_true_iff.1 can).2
    rw [base] at left
    rw [base'] at right
    obtain ⟨n, read, nonzero⟩ := resting.exists_operand fun lock member =>
      operands lock (List.mem_append_left _ (List.mem_append_left _ member))
    obtain ⟨k, read', nonzero'⟩ := resting'.exists_operand fun lock member =>
      operands lock (List.mem_append_left _ (List.mem_append_right _ member))
    have both := left.andB right read read'
    rw [decide_eq_true ⟨nonzero, nonzero'⟩] at both
    exact ⟨w ++ u, [1], both, .one, opens.andThen (left.eq_nil (.inl rfl) typed base) opens'⟩
  | orB =>
    -- Both parts are run, so the one that is not satisfied has to be dissatisfied.
    obtain ⟨base, base', dissat, dissat', rfl⟩ := Correctness.pair_orB_iff.1 made
    rcases Bool.or_eq_true_iff.1 can with can | can
    · obtain ⟨w, a, left, resting, -⟩ := first can
      obtain ⟨u, right⟩ := (notSecond dissat').yields base'
      rw [base] at left
      obtain ⟨n, read, nonzero⟩ := resting.exists_operand fun lock member =>
        operands lock (List.mem_append_left _ (List.mem_append_left _ member))
      have either := left.orB right read rfl
      rw [decide_eq_true (.inl nonzero)] at either
      exact ⟨w ++ u, [1], either, .one, Input.opens_both⟩
    · obtain ⟨w, left⟩ := (notFirst dissat).yields base
      obtain ⟨u, b, right, resting, -⟩ := second can
      rw [base'] at right
      obtain ⟨k, read, nonzero⟩ := resting.exists_operand fun lock member =>
        operands lock (List.mem_append_left _ (List.mem_append_right _ member))
      have either := left.orB right rfl read
      rw [decide_eq_true (.inr nonzero)] at either
      exact ⟨w ++ u, [1], either, .one, Input.opens_both⟩
  | orD =>
    obtain ⟨base, base', dissat, unit, rfl⟩ := Correctness.pair_orD_iff.1 made
    rcases Bool.or_eq_true_iff.1 can with can | can
    · obtain ⟨w, left⟩ := (first can).yields base unit
      exact ⟨w, [1], left.orD, .one, Input.opens_orElse⟩
    · obtain ⟨w, left⟩ := (notFirst dissat).yields base
      obtain ⟨u, v, right, resting, -⟩ := second can
      rw [base'] at right
      exact ⟨w ++ u, v, left.orDElse right, resting.mono id (List.Subset.refl _),
        Input.opens_orElse⟩
  | orC =>
    obtain ⟨base, base', dissat, unit, rfl⟩ := Correctness.pair_orC_iff.1 made
    rcases Bool.or_eq_true_iff.1 can with can | can
    · obtain ⟨w, left⟩ := (first can).yields base unit
      exact ⟨w, [1], left.orC, .one, Input.opens_orElse⟩
    · obtain ⟨w, left⟩ := (notFirst dissat).yields base
      obtain ⟨u, v, right, -, -⟩ := second can
      rw [base'] at right
      exact ⟨w ++ u, [1], left.orCElse right, .one, Input.opens_orElse⟩
  | orI =>
    obtain ⟨same, notW, rfl⟩ := Correctness.pair_orI_iff.1 made
    rcases Bool.or_eq_true_iff.1 can with can | can
    · obtain ⟨w, v, left, resting, -⟩ := first can
      exact ⟨[1] :: w, v, left.orI notW,
        resting.mono (fun units => (Bool.and_eq_true_iff.1 units).1) (List.subset_append_left _ _),
        Input.opens_either⟩
    · obtain ⟨w, v, right, resting, -⟩ := second can
      rw [← same] at right
      exact ⟨[] :: w, v, right.orIElse notW,
        resting.mono (fun units => (Bool.and_eq_true_iff.1 units).2) (List.subset_append_right _ _),
        Input.opens_either⟩

theorem satisfied_andor (made : Correctness.andor fx.type.corr fy.type.corr fz.type.corr = .ok c)
    (first : x.canSatisfy s = true → Satisfied env x fx.type.corr)
    (notFirst : fx.type.corr.dissatisfiable = true → Dissatisfied env x fx.type.corr)
    (second : y.canSatisfy s = true → Satisfied env y fy.type.corr)
    (third : z.canSatisfy s = true → Satisfied env z fz.type.corr)
    (can : (x.canSatisfy s && y.canSatisfy s || z.canSatisfy s) = true) :
    Satisfied env (.andor x y z) c := by
  obtain ⟨base, same, notW, dissat, unit, rfl⟩ := Correctness.andor_iff.1 made
  rcases Bool.or_eq_true_iff.1 can with can | can
  · obtain ⟨w, left⟩ := (first (Bool.and_eq_true_iff.1 can).1).yields base unit
    obtain ⟨u, v, right, resting, -⟩ := second (Bool.and_eq_true_iff.1 can).2
    exact ⟨w ++ u, v, left.andor right notW,
      resting.mono (fun units => (Bool.and_eq_true_iff.1 units).1) (List.subset_append_left _ _),
      Input.opens_branch⟩
  · obtain ⟨w, left⟩ := (notFirst dissat).yields base
    obtain ⟨u, v, right, resting, -⟩ := third can
    rw [← same] at right
    exact ⟨w ++ u, v, left.andorElse right notW,
      resting.mono (fun units => (Bool.and_eq_true_iff.1 units).2) (List.subset_append_right _ _),
      Input.opens_branch⟩

/-- What can be satisfied has a stack that satisfies it. -/
theorem satisfied (mirrors : s.Mirrors env) (usual : env.Usual) (typed : f.facts? = .ok facts)
    (equipped : f.Equipped env) (can : f.canSatisfy s = true) :
    Satisfied env f facts.type.corr := by
  induction f generalizing facts with
  | leaf l =>
    obtain ⟨checked, rfl, -⟩ := Fragment.facts?_leaf_iff.1 typed
    exact satisfied_leaf mirrors usual equipped checked can
  | wrap w x ih =>
    obtain ⟨fx, c, hx, made, rfl, -⟩ := Fragment.facts?_wrap_iff.1 typed
    exact satisfied_wrap hx made equipped.operands
      (ih hx (equipped.part (by simp [Fragment.children])) can)
  | pair op x y ihx ihy =>
    obtain ⟨fx, fy, c, hx, hy, made, rfl, -⟩ := Fragment.facts?_pair_iff.1 typed
    have left := equipped.part (x := x) (by simp [Fragment.children])
    have right := equipped.part (x := y) (by simp [Fragment.children])
    exact satisfied_pair hx made equipped.operands (ihx hx left) (dissatisfied usual hx left)
      (ihy hy right) (dissatisfied usual hy right) can
  | andor x y z ihx ihy ihz =>
    obtain ⟨fx, fy, fz, c, hx, hy, hz, made, rfl, -⟩ := Fragment.facts?_andor_iff.1 typed
    have left := equipped.part (x := x) (by simp [Fragment.children])
    exact satisfied_andor made (ihx hx left) (dissatisfied usual hx left)
      (ihy hy (equipped.part (by simp [Fragment.children])))
      (ihz hz (equipped.part (by simp [Fragment.children]))) can
  | thresh k subs ih =>
    -- The sum has to be `k` exactly: more parts may be satisfiable, but no more are satisfied.
    rw [Fragment.canSatisfy, Fragment.countSatisfiable_eq_countP, decide_eq_true_eq] at can
    obtain ⟨w, sum⟩ := exists_thresh (Fragment.canSatisfy s) typed
      (fun x member fx hx can => ih x member hx (equipped.part member) can)
      (fun x member fx hx => dissatisfied usual hx (equipped.part member))
      (Int.toNat_le.2 can) (equipped.toNat_lt typed)
    obtain ⟨fs, -, -, -, rfl, -⟩ := Fragment.facts?_thresh_iff.1 typed
    rw [decide_eq_true rfl] at sum
    exact ⟨w, [1], sum, .one, Input.opens_all _⟩

/-! ## Scripts -/

/-- A fragment of base B with what it takes has a stack that its instructions turn into one true
element. -/
theorem exists_runStrictly (mirrors : s.Mirrors env) (usual : env.Usual) {m : Checked}
    (base : m.type.corr.base = .B) (equipped : m.fragment.Equipped env)
    (can : m.fragment.canSatisfy s = true) :
    ∃ st v, isTrue v = true ∧
      runStrictly env (m.fragment.instructions false) (start st) = some ⟨[v], [], []⟩ := by
  obtain ⟨w, v, yields, resting, -⟩ := satisfied mirrors usual m.typed equipped can
  have isB : m.facts.type.corr.base = .B := base
  rw [isB] at yields
  have ran := yields [] [] [] rfl
  rw [List.append_nil] at ran
  refine ⟨w, v, resting.isTrue, ?_⟩
  rw [runStrictly_instructions]
  exact ran

/-- A script admits what its fragment allows. If a fragment of base B can be satisfied by what the
machine accepts, there is a stack on which its instructions, and the bytes they are written as, run
to their end under the rules of standardness and leave one true element. For this a key has to be
there for every hash of a key and a wrong message for every digest, and every lock time that is
taken as an operand has to be one. -/
theorem script_admits (mirrors : s.Mirrors env) (usual : env.Usual) {m : Checked}
    (base : m.type.corr.base = .B)
    (committed : ∀ hash, .pkHash hash ∈ m.fragment.leaves → ∃ k, env.Commits k hash)
    (failing : ∀ g image, .hashLock g image ∈ m.fragment.leaves →
      ∃ d : Bytes, d.length = 32 ∧ env.digest g d ≠ image)
    (operands : ∀ lock ∈ m.fragment.lockOperands, lock.toNat < 0x80000000)
    (can : m.fragment.canSatisfy s = true) :
    ((∀ w ∈ m.fragment.words, w.missingKey? = none) → m.fragment.words.length < 0x80000000 →
      ∃ st v, isTrue v = true ∧
        runStrictly env (m.fragment.instructions false) (start st) = some ⟨[v], [], []⟩) ∧
    ∀ b, m.fragment.script = .ok b → ∃ st v, isTrue v = true ∧
      runStrictly env (m.fragment.instructions false) (start st) = some ⟨[v], [], []⟩ ∧
      execute env b st = some ⟨[v], [], []⟩ := by
  constructor
  · intro known short
    exact exists_runStrictly mirrors usual base ⟨known, short, operands, committed, failing⟩ can
  · intro b written
    have known := (Fragment.writable_of_script written).known
    have short : m.fragment.words.length < 0x80000000 := by
      obtain ⟨known', rfl, room⟩ := Fragment.script_eq_ok_iff.1 written
      have words := Fragment.length_words_le known'
      have limit : Script.maxSize = 10000 := rfl
      omega
    obtain ⟨st, v, set, ran⟩ :=
      exists_runStrictly mirrors usual base ⟨known, short, operands, committed, failing⟩ can
    refine ⟨st, v, set, ran, ?_⟩
    rw [execute_script env m.typed written, ← run_instructions]
    exact run_of_runStrictly ran

/-- `toyEnvironment` once every absolute lock time has come. -/
def ripeEnvironment : Environment := { toyEnvironment with after := fun _ => true }

/-- What is accepted in `ripeEnvironment`, with no key for a hash but that of the one key. -/
def ripeSatisfier : Satisfier := { toySatisfier with
  keyForHash := fun hash =>
    if hash = .ofPrefix 20 Point.generator.bytes then some (.point .generator) else none
  after := fun _ => true }

theorem ripeSatisfier_mirrors : ripeSatisfier.Mirrors ripeEnvironment where
  signature := toySatisfier_describes.signature
  keyForHash hash known := by
    obtain ⟨k, found, commits, signed⟩ := toySatisfier_describes.keyForHash hash known
    cases found
    exact ⟨.point .generator, if_pos commits.symm, commits, signed⟩
  preimage := toySatisfier_describes.preimage
  older := toySatisfier_describes.older
  after _ := Iff.rfl
  honest {hash k} found := by
    simp only [ripeSatisfier, Option.ite_none_right_eq_some] at found
    obtain ⟨rfl, same⟩ := found
    cases same
    rfl

theorem usual_ripeEnvironment : ripeEnvironment.Usual := by
  constructor
  all_goals
    intro key sig accepted
    obtain ⟨rfl, rfl⟩ := of_decide_eq_true accepted
    exact ⟨by decide, by decide⟩

/-- `and_b(after(2147483647),a:thresh(2,c:pk_h(H),s:c:pk(G),aj:sha256(I)))`. -/
def seasoned : Checked where
  fragment := .pair .andB (.leaf (.after 2147483647))
    (.wrap .alt (.thresh 2
      [.wrap .check (.leaf (.pkHash (.ofPrefix 20 Point.generator.bytes))),
        .wrap .swap (.wrap .check (.leaf (.pk (.point .generator)))),
        .wrap .alt (.wrap .nonZero (.leaf (.hashLock .sha256 (.ofPrefix 32 [1]))))]))
  facts := ⟨⟨⟨.B, .any, false, true⟩, ⟨.unknown, true, false⟩⟩,
    ⟨.segwitOnly, 119, false, 23, some 23, none⟩⟩
  typed := by rfl

theorem script_admits_seasoned :
    seasoned.fragment.lockOperands = [2147483647] ∧
    seasoned.fragment.canSatisfy ripeSatisfier = true ∧
    ∃ b st v, seasoned.fragment.script = .ok b ∧ isTrue v = true ∧
      execute ripeEnvironment b st = some ⟨[v], [], []⟩ := by
  have operands : seasoned.fragment.lockOperands = [2147483647] := rfl
  have can : seasoned.fragment.canSatisfy ripeSatisfier = true := by decide
  have committed : ∀ hash, .pkHash hash ∈ seasoned.fragment.leaves →
      ∃ k, ripeEnvironment.Commits k hash := by
    intro hash member
    obtain rfl : hash = .ofPrefix 20 Point.generator.bytes := by
      simpa [seasoned, Fragment.leaves, Fragment.leavesOf] using member
    exact ⟨.point .generator, rfl⟩
  have failing : ∀ g image, .hashLock g image ∈ seasoned.fragment.leaves →
      ∃ d : Bytes, d.length = 32 ∧ ripeEnvironment.digest g d ≠ image := by
    intro g image member
    have same : Leaf.hashLock g image = .hashLock .sha256 (.ofPrefix 32 [1]) := by
      simpa [seasoned, Fragment.leaves, Fragment.leavesOf] using member
    cases same
    exact ⟨List.replicate 32 2, rfl, fun same => absurd (congrArg Digest.bytes same) (by decide)⟩
  have small : ∀ lock ∈ seasoned.fragment.lockOperands, lock.toNat < 0x80000000 := by
    simp [operands]
  have admits := script_admits ripeSatisfier_mirrors usual_ripeEnvironment rfl committed failing
    small can
  obtain ⟨b, written⟩ : ∃ b, seasoned.fragment.script = .ok b := ⟨_, rfl⟩
  obtain ⟨st, v, set, -, executed⟩ := admits.2 b written
  exact ⟨operands, can, b, st, v, written, set, executed⟩

/-- `n:after(2147483648)`. -/
def overdue : Checked where
  fragment := .wrap .zeroNotEqual (.leaf (.after 2147483648))
  facts := ⟨⟨⟨.B, .zero, false, true⟩, ⟨.none, false, true⟩⟩, ⟨.safe, 8, false, 2, some 2, none⟩⟩
  typed := by rfl

/-- All secrets are at hand and the lock time has come, but no stack at all satisfies the script:
the lock time that is left on the stack is too long for 0NOTEQUAL. -/
theorem overdue_admits_none :
    ripeSatisfier.Mirrors ripeEnvironment ∧ ripeEnvironment.Usual ∧
    overdue.type.corr.base = .B ∧ overdue.fragment.leaves = [.after 2147483648] ∧
    overdue.fragment.script = .ok [0x05, 0x00, 0x00, 0x00, 0x80, 0x00, 0xB1, 0x92] ∧
    overdue.fragment.canSatisfy ripeSatisfier = true ∧
    ∀ st, run ripeEnvironment (overdue.fragment.instructions false) (start st) = none := by
  refine ⟨ripeSatisfier_mirrors, usual_ripeEnvironment, rfl, rfl, rfl, rfl, fun st => ?_⟩
  rw [run_instructions, ← List.append_nil overdue.fragment.words, Option.eq_none_iff_forall_ne_some]
  intro t ran
  obtain ⟨v, rest, main, evaluated, -⟩ := simulated overdue.typed rfl ran
  cases evaluated with
  | zeroNotEqual inner read =>
    cases inner with
    | leaf inner =>
      cases inner with
      | after passes => cases read

end Machine

end LockScript
