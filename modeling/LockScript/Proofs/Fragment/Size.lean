import LockScript.Fragment.Sanity
import LockScript.Proofs.Key.Reading
import LockScript.Proofs.Fragment.Script
import LockScript.Proofs.Typing.Wrapping

/-!
The size of a script.

The cost of a fragment has a size that is added up without a script at hand. Counted exactly, it is
the length of the script to the byte, whether a VERIFY is taken in or stands on its own, as long as
the script is not too long to be one; of a script that is too long the size says just that
(`Script.Measures`). There is no more to say of these, since the size of a number is only counted up
to six bytes. A threshold that takes more has too many parts for a script. The size in words is the
exact one as long as the length of the script is a word.
-/

namespace LockScript

/-! ## Sizes that tell a length -/

namespace Script

/-- The number of bytes of instructions. -/
def byteLength (is : List Instruction) : Nat := (is.flatMap Instruction.bytes).length

@[simp] theorem byteLength_nil : byteLength [] = 0 := rfl

@[simp] theorem byteLength_cons (i : Instruction) (is : List Instruction) :
    byteLength (i :: is) = i.bytes.length + byteLength is := by
  simp [byteLength]

@[simp] theorem byteLength_append (is js : List Instruction) :
    byteLength (is ++ js) = byteLength is + byteLength js := by
  simp [byteLength]

/-- A size that tells the length of a script exactly, or at least that there is no room for one of
that length. It is never larger than the length. -/
def Measures (size : Int) (length : Nat) : Prop :=
  size ≤ length ∧ (size = length ∨ maxSize < size)

theorem measures_self (length : Nat) : Measures length length := ⟨Int.le_refl _, .inl rfl⟩

theorem Measures.add {size size' : Int} {length length' : Nat} (first : Measures size length)
    (second : Measures size' length') : Measures (size + size') (length + length') := by
  unfold Measures at *
  omega

theorem measures_of_eq {size : Int} {length : Nat} (exactly : size = length) :
    Measures size length :=
  ⟨Int.le_of_eq exactly, .inl exactly⟩

theorem measures_of_long {size : Int} {length : Nat} (room : size ≤ length)
    (long : maxSize < size) : Measures size length :=
  ⟨room, .inr long⟩

theorem Measures.le_iff {size : Int} {length : Nat} (measures : Measures size length) :
    size ≤ maxSize ↔ length ≤ maxSize := by
  unfold Measures at measures
  omega

theorem Measures.eq_of_le {size : Int} {length : Nat} (measures : Measures size length)
    (room : length ≤ maxSize) : size = length := by
  unfold Measures at measures
  omega

/-- A size in words is the exact one as long as the length is a word. -/
theorem Measures.toInt_ofInt {size : Int} {length : Nat} (measures : Measures size length)
    (word : length < 0x8000000000000000) : (Int64.ofInt size).toInt = size := by
  unfold Measures at measures
  exact Int64.toInt_ofInt_of_le (by omega) (by omega)

end Script

/-! ## Instructions -/

namespace Instruction

@[simp] theorem length_bytes_op (o : Opcode) : (op o).bytes.length = 1 := rfl

@[simp] theorem length_bytes_data (d : Bytes) : (data d).bytes.length = d.length + 1 := rfl

/-- The size of a number is the length of its push, as long as the number has no more than five
bytes. -/
theorem length_bytes_number {n : Nat} (small : n < 0x80 * 256 ^ 4) :
    ((number n).bytes.length : Int) = Cost.numberSize n := by
  have short (size : Nat) := @ScriptNumber.length_encode_le_iff n size
  have one := short 0
  have two := short 1
  have three := short 2
  have four := short 3
  have five := short 4
  simp only [bytes, numberBytes, pushBytes, Cost.numberSize]
  split
  · next zero => simp [zero]
  · next nonzero =>
    split
    · next few =>
      rw [if_pos (by omega)]
      rfl
    · next many =>
      rcases ScriptNumber.encode_bounds nonzero with ⟨size, length, -, -⟩
      rw [List.length_cons, if_neg (by omega)]
      split_ifs <;> omega

/-- A number is never counted as longer than it is. -/
theorem numberSize_le (n : Nat) : Cost.numberSize n ≤ (number n).bytes.length := by
  by_cases small : n < 0x80 * 256 ^ 4
  · rw [length_bytes_number small]
  · have long := (@ScriptNumber.length_encode_le_iff n 4).not.2 (by omega)
    have most : Cost.numberSize n ≤ 6 := by
      unfold Cost.numberSize
      split_ifs <;> decide
    simp only [bytes, numberBytes, pushBytes]
    rw [if_neg (by omega), if_neg (by omega), List.length_cons]
    omega

theorem length_bytes_key {k : Key} {d : Bytes} (known : k.bytes? = some d) :
    (key k).bytes.length = d.length + 1 := by
  cases k with
  | point p =>
    cases known
    rfl
  | named name => cases known

theorem missingKey?_eq_none {k : Key} {d : Bytes} (known : k.bytes? = some d) :
    (key k).missingKey? = none := by
  cases k with
  | point p => rfl
  | named name => cases known

theorem measures_number {n : Nat} (small : n < 0x80 * 256 ^ 4) :
    Script.Measures (Cost.numberSize n) (number n).bytes.length := by
  rw [← length_bytes_number small]
  exact Script.measures_self _

end Instruction

/-! ## Fragments -/

theorem Cost.numberSize_pos (n : Int) : 0 < Cost.numberSize n := by
  unfold Cost.numberSize
  split_ifs <;> decide

/-- All keys are known, with the bytes of a compressed point. -/
def Key.AllCompressed (keys : List Key) : Prop :=
  ∀ key ∈ keys, ∃ d, key.bytes? = some d ∧ d.length = 33

theorem Script.byteLength_keys {keys : List Key} (known : Key.AllCompressed keys) :
    byteLength (keys.map .key) = 34 * keys.length := by
  induction keys with
  | nil => rfl
  | cons key rest ih =>
    rcases known key List.mem_cons_self with ⟨d, serialized, size⟩
    have tail := ih fun k member => known k (List.mem_cons_of_mem _ member)
    have head := Instruction.length_bytes_key serialized
    rw [size] at head
    rw [List.map_cons, byteLength_cons, tail, head, List.length_cons]
    omega

/-- The size of `thresh_m` is exact, unless there are more keys than a script has bytes. -/
theorem Leaf.measures_multi {k : Int} {keys : List Key} (range : 1 ≤ k ∧ k ≤ keys.length)
    (known : Key.AllCompressed keys) (verify : Bool) :
    Script.Measures (Cost.multi k keys.length).size
      (Script.byteLength ((Leaf.multi k keys).instructions verify)) := by
  have pushes := Script.byteLength_keys known
  have bound : Script.maxSize = 10000 := rfl
  simp only [Leaf.instructions, Cost.multi, Cost.keySize, Script.byteLength_append,
    Script.byteLength_cons, Script.byteLength_nil, Instruction.length_bytes_op, pushes]
  by_cases few : keys.length ≤ Script.maxSize
  · have threshold := Instruction.length_bytes_number (n := k.toNat) (by omega)
    have total := Instruction.length_bytes_number (n := keys.length) (by omega)
    rw [Int.toNat_of_nonneg (by omega)] at threshold
    rw [← threshold, ← total]
    apply Script.measures_of_eq
    omega
  · have threshold := Instruction.numberSize_le k.toNat
    have total := Instruction.numberSize_le keys.length
    have positive := Cost.numberSize_pos k
    have positive' := Cost.numberSize_pos keys.length
    rw [Int.toNat_of_nonneg (by omega)] at threshold
    apply Script.measures_of_long <;> omega

theorem Leaf.measures_size {l : Leaf} (checked : Facts.checkLeaf l = .ok ())
    (known : Key.AllCompressed l.keys) (verify : Bool) :
    Script.Measures (Cost.ofLeaf l).size (Script.byteLength (l.instructions verify)) := by
  cases l with
  | zero => exact Script.measures_self 1
  | one => exact Script.measures_self 1
  | pk key =>
    rcases known key List.mem_cons_self with ⟨d, serialized, size⟩
    apply Script.measures_of_eq
    simp [Leaf.instructions, Instruction.length_bytes_key serialized, size, Cost.ofLeaf, Cost.pk,
      Cost.keySize]
  | pkHash hash =>
    apply Script.measures_of_eq
    simp [Leaf.instructions, Cost.ofLeaf, Cost.pkHash]
  | after lock =>
    have room := lock.toNat_lt
    have push := Instruction.measures_number (n := lock.toNat) (by omega)
    simpa [Leaf.instructions, Cost.ofLeaf, Cost.timeLock] using push.add (Script.measures_self 1)
  | older lock =>
    have room := lock.toNat_lt
    have push := Instruction.measures_number (n := lock.toNat) (by omega)
    simpa [Leaf.instructions, Cost.ofLeaf, Cost.timeLock] using push.add (Script.measures_self 1)
  | hashLock f image =>
    have preimage : (Instruction.number 32).bytes.length = 2 := by decide
    apply Script.measures_of_eq
    simp only [Leaf.instructions, Cost.ofLeaf, Cost.hashLock, Script.byteLength_cons,
      Script.byteLength_nil, Instruction.length_bytes_op, Instruction.length_bytes_data, preimage,
      image.length_bytes]
    omega
  | multi k keys => exact measures_multi (Facts.checkThreshold_iff.1 checked) known verify

namespace Fragment

open Script (byteLength Measures)

/-- The exact size of a fragment tells the length of its script, in either of its two forms. -/
def Measured (f : Fragment) : Prop :=
  ∀ verify, Measures (f.cost Int).size (byteLength (f.instructions verify))

theorem Measured.wrap {x : Fragment} (part : x.Measured) (w : Wrapper) :
    (Fragment.wrap w x).Measured := by
  intro verify
  have bare := part false
  have followed := part verify
  have taken := part true
  unfold Measures at *
  cases w with
  | verify =>
    simp only [instructions, cost, Cost.wrap, Cost.addOps, Counting.ofInt_int,
      Script.byteLength_append, x.wraps_cost.verifyForm]
    cases (x.cost Int).verifyForm with
    | false =>
      simp only [Bool.false_eq_true, if_false, Script.byteLength_cons, Script.byteLength_nil,
        Instruction.length_bytes_op]
      omega
    | true =>
      simp only [if_true, Script.byteLength_nil]
      omega
  | _ =>
    simp only [instructions, cost, Cost.wrap, Cost.addOps, Cost.withDissat, Counting.ofInt_int,
      Script.byteLength_append, Script.byteLength_cons, Script.byteLength_nil,
      Instruction.length_bytes_op]
    omega

theorem Measured.pair {x y : Fragment} (left : x.Measured) (right : y.Measured)
    (op : Combinator) : (Fragment.pair op x y).Measured := by
  intro verify
  have first := left false
  have second := right false
  have followed := right verify
  unfold Measures at *
  cases op <;>
    simp only [instructions, cost, Cost.pair, Cost.inRow, Cost.addOps, Counting.ofInt_int,
      Script.byteLength_append, Script.byteLength_cons, Script.byteLength_nil,
      Instruction.length_bytes_op] <;>
    omega

theorem Measured.andor {x y z : Fragment} (condition : x.Measured) (met : y.Measured)
    (unmet : z.Measured) : (Fragment.andor x y z).Measured := by
  intro verify
  have first := condition false
  have second := met false
  have third := unmet false
  unfold Measures at *
  simp only [instructions, cost, Cost.andor, Cost.addOps, Counting.ofInt_int,
    Script.byteLength_append, Script.byteLength_cons, Script.byteLength_nil,
    Instruction.length_bytes_op]
  omega

/-- Every part after the first has ADD behind it, of one byte. -/
theorem measures_sumInstructions {subs : List Fragment} (parts : ∀ x ∈ subs, x.Measured) :
    Measures (Counting.sum ((costs Int subs).map Cost.size) + subs.length)
      (byteLength (sumInstructions false subs)) := by
  induction subs with
  | nil => exact Script.measures_self 0
  | cons x rest ih =>
    have head := parts x List.mem_cons_self false
    have tail := ih fun y member => parts y (List.mem_cons_of_mem _ member)
    unfold Measures at *
    simp only [sumInstructions, costs, List.map_cons, Counting.sum_int, List.foldr_cons,
      List.length_cons, Bool.false_eq_true, if_false, Script.byteLength_append,
      Script.byteLength_cons, Script.byteLength_nil, Instruction.length_bytes_op] at tail ⊢
    omega

theorem length_le_byteLength_sumInstructions (subs : List Fragment) :
    subs.length ≤ byteLength (sumInstructions false subs) := by
  induction subs with
  | nil => exact Nat.zero_le _
  | cons x rest ih =>
    simp only [sumInstructions, List.length_cons, Bool.false_eq_true, if_false,
      Script.byteLength_append, Script.byteLength_cons, Script.byteLength_nil,
      Instruction.length_bytes_op]
    omega

/-- The size of a threshold is exact, unless there are more parts than a script has bytes. -/
theorem Measured.thresh {k : Int} {subs : List Fragment} (range : 1 ≤ k ∧ k ≤ subs.length)
    (parts : ∀ x ∈ subs, x.Measured) : (Fragment.thresh k subs).Measured := by
  intro verify
  cases subs with
  | nil =>
    rw [List.length_nil] at range
    omega
  | cons x rest =>
    have head := parts x List.mem_cons_self false
    have tail := measures_sumInstructions fun y member => parts y (List.mem_cons_of_mem _ member)
    have long := length_le_byteLength_sumInstructions rest
    have bound : Script.maxSize = 10000 := rfl
    have both := head.add tail
    have threshold := Cost.numberSize_pos k
    have counted := Instruction.numberSize_le k.toNat
    rw [Int.toNat_of_nonneg (by omega)] at counted
    rw [List.length_cons] at range
    simp only [instructions, sumInstructions, cost, costs, Cost.threshold, List.map_cons,
      Counting.sum_int, Counting.ofInt_int, List.foldr_cons, List.length_cons,
      if_true, Script.byteLength_append, Script.byteLength_cons, Script.byteLength_nil,
      Instruction.length_bytes_op] at both ⊢
    by_cases few : rest.length < Script.maxSize
    · have exactly := Instruction.length_bytes_number (n := k.toNat) (by omega)
      rw [Int.toNat_of_nonneg (by omega)] at exactly
      unfold Measures at *
      omega
    · unfold Measures at *
      omega

/-- The exact size of a typed fragment tells the length of its script. -/
theorem measured_of_typed {f : Fragment} {facts : Facts Int64} (typed : f.facts? = .ok facts)
    (known : Key.AllCompressed f.keys) : f.Measured := by
  induction f generalizing facts with
  | leaf l =>
    rcases facts?_leaf_iff.1 typed with ⟨checked, -⟩
    intro verify
    rw [instructions, cost, Cost.ofExact_int]
    exact Leaf.measures_size checked known verify
  | wrap w x ih =>
    rcases facts?_wrap_iff.1 typed with ⟨fx, _, hx, -⟩
    exact (ih hx known).wrap w
  | pair op x y ihx ihy =>
    rcases facts?_pair_iff.1 typed with ⟨fx, fy, _, hx, hy, -⟩
    rcases List.forall_mem_append.1 known with ⟨left, right⟩
    exact (ihx hx left).pair (ihy hy right) op
  | andor x y z ihx ihy ihz =>
    rcases facts?_andor_iff.1 typed with ⟨fx, fy, fz, _, hx, hy, hz, -⟩
    rcases List.forall_mem_append.1 known with ⟨both, unmet⟩
    rcases List.forall_mem_append.1 both with ⟨condition, met⟩
    exact (ihx hx condition).andor (ihy hy met) (ihz hz unmet)
  | thresh k subs ih =>
    rcases facts?_thresh_iff.1 typed with ⟨fs, each, checked, -⟩
    have range := Facts.checkThreshold_iff.1 checked
    rw [← each.length_eq] at range
    apply Measured.thresh range
    intro x member
    rcases exists_facts?_of_mem each member with ⟨fx, -, hx⟩
    apply ih x member hx
    intro key inside
    apply known
    rw [keys, keysOf_eq_flatMap]
    exact List.mem_flatMap.2 ⟨x, member, inside⟩

theorem mem_keys_of_mem_sumInstructions {subs : List Fragment} {key : Key}
    (parts : ∀ x ∈ subs, ∀ verify, .key key ∈ x.instructions verify → key ∈ x.keys) {first : Bool}
    (pushed : .key key ∈ sumInstructions first subs) : key ∈ keysOf subs := by
  induction subs generalizing first with
  | nil => cases pushed
  | cons x rest ih =>
    rw [keysOf, List.mem_append]
    rw [sumInstructions, List.mem_append, List.mem_append] at pushed
    rcases pushed with (head | added) | tail
    · exact .inl (parts x List.mem_cons_self false head)
    · cases first <;> simp at added
    · exact .inr (ih (fun y member => parts y (List.mem_cons_of_mem _ member)) tail)

/-- A script pushes no keys but those of its fragment. -/
theorem mem_keys_of_mem_instructions {f : Fragment} {key : Key} {verify : Bool}
    (pushed : .key key ∈ f.instructions verify) : key ∈ f.keys := by
  induction f generalizing verify with
  | leaf l =>
    rw [instructions] at pushed
    cases l <;> simp_all [Leaf.instructions, Leaf.keys, keys]
  | wrap w x ih =>
    rw [keys]
    cases w with
    | verify =>
      rw [instructions, List.mem_append] at pushed
      rcases pushed with inner | outer
      · exact ih inner
      · cases form : (x.cost Int64).verifyForm <;> simp [form] at outer
    | _ =>
      simp only [instructions, List.mem_append, List.mem_cons, List.not_mem_nil, reduceCtorEq,
        false_or, or_false] at pushed
      exact ih pushed
  | pair op x y ihx ihy =>
    rw [keys, List.mem_append]
    cases op <;>
      simp only [instructions, List.mem_append, List.mem_cons, List.not_mem_nil, reduceCtorEq,
        false_or, or_false] at pushed <;>
      exact pushed.imp ihx ihy
  | andor x y z ihx ihy ihz =>
    simp only [instructions, List.mem_append, List.mem_cons, List.not_mem_nil, reduceCtorEq,
      false_or, or_false] at pushed
    rw [keys, List.mem_append, List.mem_append]
    rcases pushed with (condition | unmet) | met
    · exact .inl (.inl (ihx condition))
    · exact .inr (ihz unmet)
    · exact .inl (.inr (ihy met))
  | thresh k subs ih =>
    rw [keys]
    rw [instructions, List.mem_append] at pushed
    rcases pushed with inner | outer
    · exact mem_keys_of_mem_sumInstructions (fun x member _ => ih x member) inner
    · simp at outer

theorem missingKey?_of_known {f : Fragment} (known : Key.AllCompressed f.keys) {verify : Bool} :
    ∀ i ∈ f.instructions verify, i.missingKey? = none := by
  intro i member
  cases i with
  | key k =>
    rcases known k (mem_keys_of_mem_instructions member) with ⟨d, serialized, -⟩
    exact Instruction.missingKey?_eq_none serialized
  | _ => rfl

end Fragment

/-! ## The script of a checked fragment -/

namespace Checked

/-- The size of a checked fragment whose keys are known is the length of its script, if it has one. As
long as the length of the instructions is a word, the size decides whether there is a script. -/
theorem scriptSize_measures_script (m : Checked) (known : Key.AllCompressed m.fragment.keys) :
    (∀ b, m.fragment.script = .ok b →
      (b.length : Int) = m.scriptSize ∧ m.scriptSize ≤ Script.maxSize) ∧
    (Script.byteLength (m.fragment.instructions false) < 0x8000000000000000 →
      ((∃ b, m.fragment.script = .ok b) ↔ m.scriptSize ≤ Script.maxSize)) := by
  have size : m.scriptSize = (Int64.ofInt (m.fragment.cost Int).size).toInt := by
    rw [scriptSize, cost, Fragment.cost_of_facts? m.typed, m.fragment.wraps_cost.size]
  have measures := Fragment.measured_of_typed m.typed known false
  have limit : Script.maxSize = 10000 := rfl
  constructor
  · intro b written
    rcases Fragment.script_eq_ok_iff.1 written with ⟨-, rfl, room⟩
    have exactly := measures.eq_of_le room
    rw [size, measures.toInt_ofInt (by rw [Script.byteLength]; omega), measures.le_iff]
    exact ⟨exactly.symm, room⟩
  · intro word
    rw [size, measures.toInt_ofInt word, measures.le_iff]
    constructor
    · intro ⟨b, written⟩
      rcases Fragment.script_eq_ok_iff.1 written with ⟨-, rfl, room⟩
      exact room
    · intro room
      exact ⟨_, Fragment.script_eq_ok_iff.2 ⟨Fragment.missingKey?_of_known known, rfl, room⟩⟩

/-- `and_v(v:hash160(I),and_v(v:c:pk(G),older(40000)))`, in which both VERIFYs are taken in. -/
def escrowed : Checked where
  fragment := .pair .andV (.wrap .verify (.leaf (.hashLock .hash160 (.ofPrefix 20 [1]))))
    (.pair .andV (.wrap .verify (.wrap .check (.leaf (.pk (.point .generator)))))
      (.leaf (.older 40000)))
  facts := ⟨⟨⟨.B, .anyNonZero, false, false⟩, ⟨.none, true, true⟩⟩,
    ⟨.safe, 67, false, 6, some 6, none⟩⟩
  typed := by rfl

/-- `thresh_m(1,G,...,G)` with 300 keys. -/
def crowded : Checked where
  fragment := .leaf (.multi 1 (List.replicate 300 (.point .generator)))
  facts := ⟨⟨⟨.B, .anyNonZero, true, true⟩, ⟨.unique, true, true⟩⟩,
    ⟨.safe, 10205, true, 1, some 301, some 301⟩⟩
  typed := by
    rw [Fragment.facts?_leaf_iff, Facts.checkLeaf, Correctness.ofLeaf, Malleability.ofLeaf,
      Cost.ofLeaf, List.length_replicate]
    exact ⟨rfl, rfl, rfl, rfl, rfl⟩

theorem scriptSize_measures_script_escrowed :
    (∃ b, escrowed.fragment.script = .ok b ∧ b.length = 67) ∧
      ¬ ∃ b, crowded.fragment.script = .ok b := by
  have one : Key.AllCompressed escrowed.fragment.keys := by
    simp [Key.AllCompressed, escrowed, Fragment.keys, Leaf.keys, Key.bytes?]
  have many : Key.AllCompressed (List.replicate 300 (.point .generator)) := by
    intro key member
    rw [List.eq_of_mem_replicate member]
    exact ⟨_, rfl, Point.length_bytes _⟩
  have short : Script.byteLength (crowded.fragment.instructions false) < 0x8000000000000000 := by
    rw [crowded, Fragment.instructions, Leaf.instructions, Script.byteLength_append,
      Script.byteLength_cons, Script.byteLength_keys many, List.length_replicate]
    decide
  rcases scriptSize_measures_script escrowed one with ⟨length, decides⟩
  rcases (decides (by decide)).2 (by decide) with ⟨b, written⟩
  constructor
  · exact ⟨b, written, Int.ofNat_inj.1 (length b written).1⟩
  · rw [(scriptSize_measures_script crowded many).2 short]
    decide

/-- `v:1` takes two bytes. So many of them are put together that the size is negative, and there is no
script. -/
theorem scriptSize_wraps_around :
    ¬ ∀ m : Checked, Key.AllCompressed m.fragment.keys →
      ((∃ b, m.fragment.script = .ok b) ↔ m.scriptSize ≤ Script.maxSize) := by
  intro decides
  have keyless (n : Nat) : (Fragment.verifiedOne.doubled n).keys = [] := by
    induction n with
    | zero => rfl
    | succ n ih => rw [Fragment.doubled, Fragment.keys, ih, List.append_nil]
  have known : Key.AllCompressed ones.fragment.keys := by
    have none : ones.fragment.keys = [] := keyless 62
    rw [Key.AllCompressed, none]
    exact List.forall_mem_nil _
  have total := (Fragment.verifiedOne.counts_doubled 62).1
  have negative : ones.scriptSize ≤ Script.maxSize := by
    change ((Fragment.verifiedOne.doubled 62).cost Int64).size.toInt ≤ _
    rw [(Fragment.wraps_cost _).size, total]
    decide
  obtain ⟨b, written⟩ := (decides ones known).2 negative
  have measures := Fragment.measured_of_typed ones.typed known false
  rcases Fragment.script_eq_ok_iff.1 written with ⟨-, rfl, room⟩
  have short := measures.le_iff.2 room
  change ((Fragment.verifiedOne.doubled 62).cost Int).size ≤ _ at short
  rw [total] at short
  exact absurd short (by decide)

end Checked

end LockScript
