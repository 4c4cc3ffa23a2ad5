import LockScript.Proofs.Fragment.Script
import LockScript.Proofs.Key.Reading
import LockScript.Proofs.Typing.Wrapping

/-!
The operations in a script.

Every opcode of a script above those that push small numbers is an operation. The cost of a fragment
counts them without a script at hand. Counted exactly, they are the operations among the instructions
of the fragment (`Fragment.counted_of_typed`) and among the opcodes of its bytes
(`Fragment.staticOps_eq_operations`). What has a script has few operations
(`Fragment.fits_of_script`), so there the count in words is exact too.
-/

namespace LockScript

/-! ## Operations in bytes -/

namespace Script

/-- The opcodes of elements. -/
def Elements.opcodes : Elements → List UInt8
  | .done => []
  | .malformed _ _ => []
  | .cons e rest => e.opcode :: rest.opcodes

/-- The number of opcodes of a script above the push of 16. -/
def operations (script : Bytes) : Nat := (elements script).opcodes.countP (0x60 < ·)

end Script

namespace Instruction

/-- Whether an instruction is an opcode and no push. -/
def isOp : Instruction → Bool
  | .op _ => true
  | _ => false

theorem low_of_pushBytes {d data : Bytes} {opcode : UInt8} (bytes : pushBytes d = opcode :: data)
    (short : d.length ≤ 0x4B) : ¬ 0x60 < opcode := by
  obtain ⟨rfl, -⟩ := List.cons.inj bytes
  rw [UInt8.lt_iff_toNat_lt, UInt8.toNat_ofNat']
  change ¬ 0x60 < _
  omega

theorem low_of_numberBytes {n : Nat} {data : Bytes} {opcode : UInt8}
    (bytes : numberBytes n = opcode :: data) (small : n < 2 ^ 32) : ¬ 0x60 < opcode := by
  unfold numberBytes at bytes
  split at bytes
  · obtain ⟨rfl, -⟩ := List.cons.inj bytes
    decide
  · split at bytes
    · next few =>
      obtain ⟨rfl, -⟩ := List.cons.inj bytes
      rw [UInt8.lt_iff_toNat_lt, UInt8.toNat_ofNat']
      change ¬ 0x60 < _
      omega
    · exact low_of_pushBytes bytes (Nat.le_trans (ScriptNumber.length_encode_le small) (by decide))

/-- The opcodes of pushes are below all others. -/
theorem lt_opcode_iff {i : Instruction} (readable : i.Readable) {opcode : UInt8} {data : Bytes}
    (bytes : i.bytes = opcode :: data) : 0x60 < opcode ↔ i.isOp = true := by
  cases i with
  | op o =>
    obtain ⟨rfl, -⟩ := List.cons.inj bytes
    cases o <;> decide
  | bit b =>
    have low := low_of_numberBytes (n := if b then 1 else 0) (by cases b <;> exact bytes)
      (by cases b <;> decide)
    simp [isOp, low]
  | number n => simp [isOp, low_of_numberBytes bytes readable]
  | data d =>
    have short : d.length ≤ 0x4B := by rcases readable with size | size | size <;> omega
    simp [isOp, low_of_pushBytes bytes short]
  | key k =>
    obtain ⟨p, rfl⟩ := readable
    have short : p.bytes.length ≤ 0x4B := by rw [p.length_bytes]; decide
    simp [isOp, low_of_pushBytes bytes short]

/-- The operations are found again in the bytes, one element after the other. -/
theorem countP_opcodes {is : List Instruction} (readable : ∀ i ∈ is, i.Readable)
    (bound offset : Nat) (room : (is.flatMap bytes).length ≤ bound) :
    (Script.elementsFrom bound offset (is.flatMap bytes)).opcodes.countP (0x60 < ·) =
      is.countP isOp := by
  induction is generalizing bound offset with
  | nil => simp [Script.elementsFrom, Script.Elements.opcodes]
  | cons i rest ih =>
    have head := readable i List.mem_cons_self
    have tail := ih fun j member => readable j (List.mem_cons_of_mem _ member)
    obtain ⟨opcode, data, read⟩ := exists_readAs head
    have same := lt_opcode_iff head read.bytes
    rw [List.flatMap_cons, read.bytes, List.cons_append] at room ⊢
    cases bound with
    | zero => simp at room
    | succ bound =>
      simp only [List.length_cons, List.length_append] at room
      simp only [Script.elementsFrom, read.push, Script.Elements.opcodes, List.countP_cons,
        Nat.zero_add, List.drop_left, tail bound _ (by omega), decide_eq_true_eq, same]

theorem operations_bytes {is : List Instruction} (readable : ∀ i ∈ is, i.Readable) :
    Script.operations (is.flatMap bytes) = is.countP isOp :=
  countP_opcodes readable _ 0 (Nat.le_refl _)

end Instruction

/-! ## Operations of fragments -/

theorem Leaf.countP_instructions (l : Leaf) (verify : Bool) :
    ((l.instructions verify).countP Instruction.isOp : Int) = (Cost.ofLeaf l).staticOps := by
  cases l with
  | multi k keys =>
    have pushes : (keys.map Instruction.key).countP Instruction.isOp = 0 := by
      rw [List.countP_eq_zero]
      intro i member
      rcases List.mem_map.1 member with ⟨key, -, rfl⟩
      exact Bool.false_ne_true
    simp [instructions, Instruction.isOp, Cost.ofLeaf, Cost.multi, List.countP_cons, pushes]
  | _ => rfl

namespace Fragment

/-- The operations among the instructions are counted exactly, in either form of the script. -/
def Counted (f : Fragment) : Prop :=
  ∀ verify, ((f.instructions verify).countP Instruction.isOp : Int) = (f.cost Int).staticOps

theorem Counted.wrap {x : Fragment} (part : x.Counted) (w : Wrapper) :
    (Fragment.wrap w x).Counted := by
  intro verify
  have bare := part false
  have followed := part verify
  have taken := part true
  cases w with
  | verify =>
    simp only [instructions, cost, Cost.wrap, Cost.addOps, Counting.ofInt_int, List.countP_append,
      x.wraps_cost.verifyForm]
    cases (x.cost Int).verifyForm with
    | false => simp [Instruction.isOp, List.countP_cons, taken]
    | true => simp [taken]
  | _ =>
    simp only [instructions, cost, Cost.wrap, Cost.addOps, Cost.withDissat, Counting.ofInt_int,
      List.countP_append, List.countP_cons, List.countP_nil, Instruction.isOp, if_true]
    omega

theorem Counted.pair {x y : Fragment} (left : x.Counted) (right : y.Counted) (op : Combinator) :
    (Fragment.pair op x y).Counted := by
  intro verify
  have first := left false
  have second := right false
  have followed := right verify
  cases op <;>
    simp only [instructions, cost, Cost.pair, Cost.inRow, Cost.addOps, Counting.ofInt_int,
      List.countP_append, List.countP_cons, List.countP_nil, Instruction.isOp, if_true] <;>
    omega

theorem Counted.andor {x y z : Fragment} (condition : x.Counted) (met : y.Counted)
    (unmet : z.Counted) : (Fragment.andor x y z).Counted := by
  intro verify
  have first := condition false
  have second := met false
  have third := unmet false
  simp only [instructions, cost, Cost.andor, Cost.addOps, Counting.ofInt_int, List.countP_append,
    List.countP_cons, List.countP_nil, Instruction.isOp, if_true]
  omega

/-- Every part after the first has ADD behind it. -/
theorem countP_sumInstructions {subs : List Fragment} (parts : ∀ x ∈ subs, x.Counted) :
    ((sumInstructions false subs).countP Instruction.isOp : Int) =
      Counting.sum ((costs Int subs).map Cost.staticOps) + subs.length := by
  induction subs with
  | nil => rfl
  | cons x rest ih =>
    have head := parts x List.mem_cons_self false
    have tail := ih fun y member => parts y (List.mem_cons_of_mem _ member)
    simp only [sumInstructions, costs, List.map_cons, Counting.sum_int, List.foldr_cons,
      List.length_cons, Bool.false_eq_true, if_false, List.countP_append, List.countP_cons,
      List.countP_nil, Instruction.isOp, if_true] at tail ⊢
    omega

/-- A threshold of some parts has an ADD for each of them but the first, and an EQUAL. -/
theorem Counted.thresh {k : Int} {subs : List Fragment} (some : subs ≠ [])
    (parts : ∀ x ∈ subs, x.Counted) : (Fragment.thresh k subs).Counted := by
  intro verify
  cases subs with
  | nil => exact absurd rfl some
  | cons x rest =>
    have head := parts x List.mem_cons_self false
    have tail := countP_sumInstructions fun y member => parts y (List.mem_cons_of_mem _ member)
    simp only [instructions, sumInstructions, cost, costs, Cost.threshold, List.map_cons,
      Counting.ofInt_int, Counting.sum_int, List.foldr_cons, List.length_cons, if_true,
      List.countP_append, List.countP_cons, List.countP_nil, Instruction.isOp, Bool.false_eq_true,
      if_false] at tail ⊢
    omega

theorem counted_of_typed {f : Fragment} {facts : Facts Int64} (typed : f.facts? = .ok facts) :
    f.Counted := by
  induction f generalizing facts with
  | leaf l =>
    intro verify
    rw [instructions, cost, Cost.ofExact_int]
    exact l.countP_instructions verify
  | wrap w x ih =>
    rcases facts?_wrap_iff.1 typed with ⟨fx, _, hx, -⟩
    exact (ih hx).wrap w
  | pair op x y ihx ihy =>
    rcases facts?_pair_iff.1 typed with ⟨fx, fy, _, hx, hy, -⟩
    exact (ihx hx).pair (ihy hy) op
  | andor x y z ihx ihy ihz =>
    rcases facts?_andor_iff.1 typed with ⟨fx, fy, fz, _, hx, hy, hz, -⟩
    exact (ihx hx).andor (ihy hy) (ihz hz)
  | thresh k subs ih =>
    rcases facts?_thresh_iff.1 typed with ⟨fs, each, checked, -⟩
    have range := Facts.checkThreshold_iff.1 checked
    apply Counted.thresh
    · rintro rfl
      cases each
      rw [List.length_nil] at range
      omega
    · intro x member
      rcases exists_facts?_of_mem each member with ⟨fx, -, hx⟩
      exact ih x member hx

theorem staticOps_eq_operations {f : Fragment} {facts : Facts Int64} (typed : f.facts? = .ok facts)
    {b : Bytes} (written : f.script = .ok b) : (f.cost Int).staticOps = Script.operations b := by
  have readable := readable_iff.1 (readable_of_typed typed (writable_of_script written))
  obtain ⟨-, rfl, -⟩ := script_eq_ok_iff.1 written
  rw [Instruction.operations_bytes readable]
  exact (counted_of_typed typed false).symm

end Fragment

/-! ## Scripts are short enough -/

namespace Fragment

/-- Every operation is an instruction, and so is the push of every key. -/
def Spacious (f : Fragment) : Prop :=
  ∀ verify, (f.instructions verify).countP Instruction.isOp + Course.multiKeys f.leaves
    ≤ (f.instructions verify).length

theorem spacious_leaf (l : Leaf) : (leaf l).Spacious := by
  intro verify
  rw [instructions, leaves]
  cases l with
  | multi k keys =>
    have one : (Leaf.instructions (.multi k keys) verify).countP Instruction.isOp = 1 :=
      Int.ofNat_inj.1 (Leaf.countP_instructions (.multi k keys) verify)
    have long : (Leaf.instructions (.multi k keys) verify).length = keys.length + 3 := by
      simp [Leaf.instructions]
    rw [one, long]
    simp only [Course.multiKeys, Leaf.multiKeys, List.foldr_cons, List.foldr_nil]
    omega
  | _ =>
    simp only [Course.multiKeys, Leaf.multiKeys, List.foldr_cons, List.foldr_nil, Nat.add_zero]
    exact List.countP_le_length

theorem Spacious.wrap {x : Fragment} (part : x.Spacious) (w : Wrapper) :
    (Fragment.wrap w x).Spacious := by
  intro verify
  have bare := part false
  have followed := part verify
  have taken := part true
  cases w with
  | verify =>
    simp only [instructions, leaves, List.countP_append, List.length_append]
    split <;> simp [Instruction.isOp, List.countP_cons] <;> omega
  | _ =>
    simp only [instructions, leaves, List.countP_append, List.countP_cons, List.countP_nil,
      Instruction.isOp, if_true, List.length_append, List.length_cons, List.length_nil]
    omega

theorem Spacious.pair {x y : Fragment} (left : x.Spacious) (right : y.Spacious) (op : Combinator) :
    (Fragment.pair op x y).Spacious := by
  intro verify
  have first := left false
  have second := right false
  have followed := right verify
  cases op <;>
    simp only [instructions, leaves, Course.multiKeys_append, List.countP_append, List.countP_cons,
      List.countP_nil, Instruction.isOp, if_true, List.length_append, List.length_cons,
      List.length_nil] <;>
    omega

theorem Spacious.andor {x y z : Fragment} (condition : x.Spacious) (met : y.Spacious)
    (unmet : z.Spacious) : (Fragment.andor x y z).Spacious := by
  intro verify
  have first := condition false
  have second := met false
  have third := unmet false
  simp only [instructions, leaves, Course.multiKeys_append, List.countP_append, List.countP_cons,
    List.countP_nil, Instruction.isOp, if_true, List.length_append, List.length_cons,
    List.length_nil]
  omega

theorem Spacious.thresh {subs : List Fragment} (parts : ∀ x ∈ subs, x.Spacious) (k : Int) :
    (Fragment.thresh k subs).Spacious := by
  intro verify
  have sum (first : Bool) : (sumInstructions first subs).countP Instruction.isOp
      + Course.multiKeys (leavesOf subs) ≤ (sumInstructions first subs).length := by
    induction subs generalizing first with
    | nil => exact Nat.le_refl 0
    | cons x rest ih =>
      have head := parts x List.mem_cons_self false
      have tail := ih (fun y member => parts y (List.mem_cons_of_mem _ member)) false
      simp only [sumInstructions, leavesOf, Course.multiKeys_append, List.countP_append,
        List.length_append]
      have added := (if first then [] else [Instruction.op .add]).countP_le_length
        (p := Instruction.isOp)
      omega
  have inside := sum true
  simp only [instructions, leaves, List.countP_append, List.countP_cons, List.countP_nil,
    Instruction.isOp, if_true, List.length_append, List.length_cons, List.length_nil,
    Bool.false_eq_true, if_false]
  omega

theorem spacious (f : Fragment) : f.Spacious := by
  induction f with
  | leaf l => exact spacious_leaf l
  | wrap w x ih => exact ih.wrap w
  | pair op x y ihx ihy => exact ihx.pair ihy op
  | andor x y z ihx ihy ihz => exact ihx.andor ihy ihz
  | thresh k subs ih => exact Spacious.thresh ih k

/-- The operations of what has a script are few. -/
theorem allOps_le_of_script {f : Fragment} {facts : Facts Int64} (typed : f.facts? = .ok facts)
    {b : Bytes} (written : f.script = .ok b) : f.allOps ≤ Script.maxSize := by
  have readable := readable_iff.1 (readable_of_typed typed (writable_of_script written))
  obtain ⟨-, rfl, room⟩ := script_eq_ok_iff.1 written
  have long := Instruction.length_le_length_bytes readable
  have all := f.spacious false
  rw [allOps, ← counted_of_typed typed false]
  omega

theorem fits_of_script {f : Fragment} {facts : Facts Int64} (typed : f.facts? = .ok facts)
    {b : Bytes} (written : f.script = .ok b) : f.Fits :=
  Int.lt_of_le_of_lt (allOps_le_of_script typed written) (by decide)

end Fragment

/-! ## Checked fragments -/

namespace Checked

theorem isSome_mostKeys_iff (cs : List Course) : (Course.mostKeys cs).isSome = true ↔ cs ≠ [] := by
  simp [Course.mostKeys, List.isSome_max?_iff]

/-- The operations of a checked fragment are counted up to wrapping around: those of its script, in
instructions and in bytes, and on top of them the keys of the CHECKMULTISIGs that are run in the most
expensive course that satisfies it or dissatisfies it. There is a count just if there is a course.
The counts are exact if the operations and the keys of all CHECKMULTISIGs are a word, and always are
if there is a script. -/
theorem ops_exact (m : Checked) :
    let ops := (m.fragment.instructions false).countP Instruction.isOp
    m.cost.staticOps = Int64.ofInt ops ∧
    (m.cost.satOps.isSome = true ↔ m.fragment.courses true ≠ []) ∧
    (m.cost.dissatOps.isSome = true ↔ m.fragment.courses false ≠ []) ∧
    (ops + Course.multiKeys m.fragment.leaves < 0x8000000000000000 →
      m.cost.staticOps.toInt = ops ∧
      (m.cost.satOps.map Int64.toInt =
        (Course.mostKeys (m.fragment.courses true)).map fun n : Nat => (ops + n : Int)) ∧
      m.cost.dissatOps.map Int64.toInt =
        (Course.mostKeys (m.fragment.courses false)).map fun n : Nat => (ops + n : Int)) ∧
    ∀ b, m.fragment.script = .ok b →
      ops + Course.multiKeys m.fragment.leaves < 0x8000000000000000 ∧
        Script.operations b = ops := by
  have cost : m.cost = m.fragment.cost Int64 := Fragment.cost_of_facts? m.typed
  have counted := Fragment.counted_of_typed m.typed false
  have told := m.fragment.exact
  have wraps := m.fragment.wraps_cost
  have all : m.fragment.allOps = ((m.fragment.instructions false).countP Instruction.isOp
      + Course.multiKeys m.fragment.leaves : Nat) := by
    rw [Fragment.allOps, ← counted, Int.natCast_add]
  intro ops
  refine ⟨?_, ?_, ?_, fun small => ?_, fun b written => ⟨?_, ?_⟩⟩
  · rw [cost, wraps.static, counted]
  · rw [cost, wraps.sat.isSome_eq, told.sat, Course.ops, Option.isSome_map, isSome_mostKeys_iff]
  · rw [cost, wraps.dissat.isSome_eq, told.dissat, Course.ops, Option.isSome_map,
      isSome_mostKeys_iff]
  · have fits : m.fragment.Fits := by
      rw [Fragment.Fits, all]
      omega
    rw [cost, fits.staticOps, fits.satOps, fits.dissatOps, told.sat, told.dissat, ← counted]
    exact ⟨rfl, rfl, rfl⟩
  · have few := Fragment.allOps_le_of_script m.typed written
    have bound : Script.maxSize = 10000 := rfl
    omega
  · exact Int.ofNat_inj.1 ((Fragment.staticOps_eq_operations m.typed written).symm.trans counted.symm)

/-- `or_d(thresh(1,j:thresh_m(1,G,G),aj:thresh_m(1,G,G,G)),and_v(v:thresh_m(1,G),after(10)))`. The
most expensive course satisfies the second part of the threshold and skips the first. -/
def staked : Checked where
  fragment :=
    .pair .orD
      (.thresh 1 [.wrap .nonZero (.leaf (.multi 1 (.replicate 2 (.point .generator)))),
        .wrap .alt (.wrap .nonZero (.leaf (.multi 1 (.replicate 3 (.point .generator)))))])
      (.pair .andV (.wrap .verify (.leaf (.multi 1 [.point .generator]))) (.leaf (.after 10)))
  facts := ⟨⟨⟨.B, .any, false, false⟩, ⟨.none, true, false⟩⟩,
    ⟨.safe, 231, false, 19, some 22, none⟩⟩
  typed := by rfl

theorem ops_exact_staked :
    (∃ b, staked.fragment.script = .ok b ∧ Script.operations b = 19) ∧
      Course.mostKeys (staked.fragment.courses true) = some 3 ∧
      Course.mostKeys (staked.fragment.courses false) = none := by
  rcases ops_exact staked with ⟨-, -, -, exactly, operations⟩
  rcases operations _ rfl with ⟨small, found⟩
  rcases exactly small with ⟨-, sat, dissat⟩
  refine ⟨⟨_, rfl, found⟩, ?_, ?_⟩
  · rcases Option.map_eq_some_iff.1 sat.symm with ⟨most, found, total⟩
    have sum : (19 : Int) + most = 19 + 3 := total
    have three : most = 3 := Int.ofNat_inj.1 (Int.add_left_cancel sum)
    rw [found, three]
  · exact Option.map_eq_none_iff.1 dissat.symm

/-- `v:1` is put together with itself so often that the operations, one for each, are no word. They
are counted as a negative number. -/
theorem ops_wrap_around :
    ¬ ∀ m : Checked, m.cost.staticOps.toInt =
      (m.fragment.instructions false).countP Instruction.isOp := by
  intro exactly
  obtain ⟨-, static, sat, -⟩ := Fragment.verifiedOne.counts_doubled 62
  have cost : (Fragment.verifiedOne.doubled 62).cost Int64 = .ofExact _ :=
    Fragment.cost_eq_ofExact Fragment.fits_ones
  have covered : ((Fragment.verifiedOne.doubled 63).cost Int64).Covered := by
    rw [← Cost.covered_iff, Fragment.doubled, Fragment.cost, cost]
    simp only [Cost.pair, Cost.inRow, Cost.ofExact, static, sat, Cost.violation?]
    decide
  have typed := Fragment.facts?_pair_of_covered ones.typed ones.typed
    Fragment.repeats_verifiedOne.corr covered
  have counted := Fragment.counted_of_typed typed false
  have word : ((Fragment.verifiedOne.doubled 63).cost Int64).staticOps.toInt = _ :=
    exactly ⟨_, _, typed⟩
  have total := (Fragment.verifiedOne.counts_doubled 63).2.1
  rw [counted, (Fragment.wraps_cost _).static, total] at word
  change _ = ((Fragment.verifiedOne.doubled 63).cost Int).staticOps at word
  rw [total] at word
  exact absurd word (by decide)

end Checked

end LockScript
