import LockScript.Proofs.Script.Lexing
import LockScript.Proofs.Typing.Inversion

/-!
The bytes of fragments.

The script of a fragment never has a VERIFY where an opcode could have taken it in
(`fused_instructions`), so that what is known of scripts and tokens applies to it. A fragment is
`Readable` if its words are; then its bytes have the symbols of its words for tokens (`lex_script`),
and bytes with these tokens are its script (`bytes_of_lex`).
-/

namespace LockScript

/-! ## Assembling -/

namespace Script

theorem assembleFrom_eq_ok_iff {size : Nat} (room : size ≤ maxSize) {is : List Instruction}
    {b : Bytes} :
    assembleFrom size is = .ok b ↔
      b = is.flatMap Instruction.bytes ∧ size + b.length ≤ maxSize := by
  induction is generalizing size b with
  | nil =>
    rw [assembleFrom, Except.ok.injEq, List.flatMap_nil]
    constructor
    · rintro rfl
      exact ⟨rfl, room⟩
    · rintro ⟨rfl, -⟩
      rfl
  | cons i is ih =>
    rw [assembleFrom, List.flatMap_cons]
    by_cases long : size + i.bytes.length > maxSize
    · rw [if_pos long]
      constructor
      · rintro ⟨⟩
      · rintro ⟨rfl, fits⟩
        rw [List.length_append] at fits
        omega
    · rw [if_neg long]
      have next := fun b => ih (b := b) (Nat.le_of_not_lt long)
      cases assembled : assembleFrom (size + i.bytes.length) is with
      | error e =>
        constructor
        · rintro ⟨⟩
        · rintro ⟨rfl, fits⟩
          rw [List.length_append, ← Nat.add_assoc] at fits
          rw [(next _).2 ⟨rfl, fits⟩] at assembled
          cases assembled
      | ok tail =>
        obtain ⟨rfl, fits⟩ := (next tail).1 assembled
        rw [Except.ok.injEq]
        constructor
        · rintro rfl
          refine ⟨rfl, ?_⟩
          rw [List.length_append, ← Nat.add_assoc]
          exact fits
        · rintro ⟨rfl, -⟩
          rfl

/-- Instructions have bytes if all their keys are known and there is room. -/
theorem assemble_eq_ok_iff {is : List Instruction} {b : Bytes} :
    assemble is = .ok b ↔
      (∀ i ∈ is, i.missingKey? = none) ∧ b = is.flatMap Instruction.bytes ∧ b.length ≤ maxSize := by
  rw [assemble, ← List.findSome?_eq_none_iff]
  cases missing : is.findSome? Instruction.missingKey? with
  | some name => simp
  | none => simp [assembleFrom_eq_ok_iff (Nat.zero_le maxSize)]

/-- Fused instructions stay so when others follow that do not begin with VERIFY. -/
theorem Fused.append {is js : List Instruction} (fused : Fused is) (fused' : Fused js)
    (begins : js.head? ≠ some (.op .verify)) : Fused (is ++ js) := by
  refine List.isChain_append.2 ⟨fused, fused', ?_⟩
  rintro i - j first rfl
  exact (begins first).elim

theorem Fused.cons {i : Instruction} {is : List Instruction} (fused : Fused is)
    (begins : is.head? ≠ some (.op .verify)) : Fused (i :: is) :=
  Fused.append (List.isChain_singleton i) fused begins

theorem Fused.concat {is : List Instruction} (fused : Fused is) {o : Opcode} (other : o ≠ .verify) :
    Fused (is ++ [.op o]) :=
  fused.append (List.isChain_singleton _) (by simpa using other)

/-- The last instruction could not take in a VERIFY. -/
def EndsBare (is : List Instruction) : Prop :=
  ∀ o, is.getLast? = some (.op o) → o.verifyForm? = none

theorem endsBare_concat {o : Opcode} (bare : o.verifyForm? = none) (is : List Instruction) :
    EndsBare (is ++ [.op o]) := by
  intro p last
  rw [List.getLast?_concat] at last
  cases last
  exact bare

theorem EndsBare.onto {js : List Instruction} (bare : EndsBare js) (some : js ≠ [])
    (is : List Instruction) : EndsBare (is ++ js) := by
  intro o last
  rw [List.getLast?_append_of_ne_nil _ some] at last
  exact bare o last

theorem Fused.append_verify {is : List Instruction} (fused : Fused is) (bare : EndsBare is) :
    Fused (is ++ [.op .verify]) := by
  refine List.isChain_append.2 ⟨fused, List.isChain_singleton _, ?_⟩
  rintro i last j - - o rfl
  exact bare o last

end Script

/-! ## Fused scripts -/

namespace Leaf

theorem instructions_ne_nil (l : Leaf) (verify : Bool) : l.instructions verify ≠ [] := by
  cases l <;> simp [instructions]

theorem head_instructions (l : Leaf) (verify : Bool) :
    (l.instructions verify).head? ≠ some (.op .verify) := by
  cases l <;> simp [instructions]

theorem endsBare_instructions (l : Leaf) : Script.EndsBare (l.instructions true) := by
  cases l with
  | zero => rintro o ⟨⟩
  | one => rintro o ⟨⟩
  | pk key => rintro o ⟨⟩
  | pkHash hash => exact Script.endsBare_concat rfl [_, _, _]
  | after lock => exact Script.endsBare_concat rfl [_]
  | older lock => exact Script.endsBare_concat rfl [_]
  | hashLock f image => exact Script.endsBare_concat rfl [_, _, _, _, _]
  | multi k keys =>
    rw [instructions, List.append_cons]
    exact Script.endsBare_concat rfl _

theorem fused_instructions (l : Leaf) (verify : Bool) : Script.Fused (l.instructions verify) := by
  have chain (keys : List Key) : ∀ n : Nat,
      Script.Fused (keys.map Instruction.key
        ++ [.number n, .op (Opcode.checkMultiSig.orVerify verify)]) := by
    intro n
    induction keys with
    | nil =>
      cases verify <;>
        simp [Script.Fused, Instruction.MayPrecede, Opcode.orVerify, Opcode.verifyForm?]
    | cons k keys ih => cases keys <;> exact ih.cons (by simp)
  cases l with
  | multi k keys => cases keys <;> exact (chain _ _).cons (by simp)
  | _ =>
    cases verify <;>
      simp [instructions, Script.Fused, Instruction.MayPrecede, Opcode.orVerify, Opcode.verifyForm?]

/-- A leaf whose numbers are below 2³² and whose keys are known. -/
def Readable : Leaf → Prop
  | .pk key => ∃ p, key = .point p
  | .multi k keys => k.toNat < 2 ^ 32 ∧ keys.length < 2 ^ 32 ∧ ∀ key ∈ keys, ∃ p, key = .point p
  | _ => True

end Leaf

namespace Fragment

theorem instructions_ne_nil (f : Fragment) (verify : Bool) : f.instructions verify ≠ [] := by
  induction f generalizing verify with
  | leaf l => simpa [instructions] using l.instructions_ne_nil verify
  | wrap w x ih => cases w <;> simp [instructions, ih]
  | pair op x y ihx ihy => cases op <;> simp [instructions, ihx]
  | andor x y z => simp [instructions]
  | thresh k subs => simp [instructions]

/-- No script begins with VERIFY. -/
theorem head_instructions (f : Fragment) (verify : Bool) :
    (f.instructions verify).head? ≠ some (.op .verify) := by
  have onto (x : Fragment) (verify : Bool) (js : List Instruction) :
      (x.instructions verify ++ js).head? = (x.instructions verify).head? := by
    rw [List.head?_append_of_ne_nil _ (x.instructions_ne_nil verify)]
  induction f generalizing verify with
  | leaf l => simpa [instructions] using l.head_instructions verify
  | wrap w x ih => cases w <;> simp [instructions, onto, ih]
  | pair op x y ihx ihy => cases op <;> simp [instructions, onto, ihx]
  | andor x y z ihx ihy ihz => simp [instructions, onto, ihx]
  | thresh k subs ih =>
    cases subs with
    | nil => simp [instructions, sumInstructions]
    | cons x rest => simp [instructions, sumInstructions, onto, ih x]

/-- A script told of a VERIFY after it ends in an opcode that takes in no other. -/
theorem endsBare_instructions (f : Fragment) : Script.EndsBare (f.instructions true) := by
  induction f with
  | leaf l => simpa [instructions] using l.endsBare_instructions
  | wrap w x ih =>
    cases w with
    | swap =>
      rw [instructions]
      exact ih.onto (x.instructions_ne_nil true) [_]
    | verify =>
      rw [instructions]
      cases (x.cost Int64).verifyForm with
      | true => simpa using ih
      | false => exact Script.endsBare_concat rfl _
    | _ =>
      rw [instructions]
      exact Script.endsBare_concat rfl _
  | pair op x y ihx ihy =>
    cases op with
    | andV =>
      rw [instructions]
      exact ihy.onto (y.instructions_ne_nil true) _
    | _ =>
      rw [instructions]
      exact Script.endsBare_concat rfl _
  | andor x y z =>
    rw [instructions]
    exact Script.endsBare_concat rfl _
  | thresh k subs =>
    rw [instructions, List.append_cons]
    exact Script.endsBare_concat rfl _

theorem fused_sumInstructions {subs : List Fragment}
    (each : ∀ x ∈ subs, Script.Fused (x.instructions false)) (first : Bool) :
    Script.Fused (sumInstructions first subs) := by
  induction subs generalizing first with
  | nil =>
    rw [sumInstructions]
    exact List.isChain_nil
  | cons x rest ih =>
    have tail := ih (fun y member => each y (by simp [member])) false
    have begins : (sumInstructions false rest).head? ≠ some (.op .verify) := by
      cases rest with
      | nil => simp [sumInstructions]
      | cons y more =>
        rw [sumInstructions, List.append_assoc,
          List.head?_append_of_ne_nil _ (y.instructions_ne_nil false)]
        exact y.head_instructions false
    have head := each x (by simp)
    rw [sumInstructions]
    cases first with
    | true =>
      rw [if_pos rfl, List.append_nil]
      exact head.append tail begins
    | false => exact (head.concat (by decide)).append tail begins

/-- In the script of a fragment every VERIFY that an opcode can take in is taken in. -/
theorem fused_instructions (f : Fragment) (verify : Bool) :
    Script.Fused (f.instructions verify) := by
  induction f generalizing verify with
  | leaf l =>
    rw [instructions]
    exact l.fused_instructions verify
  | wrap w x ih =>
    have head := x.head_instructions
    cases w with
    | alt =>
      rw [instructions]
      exact ((ih false).cons (head false)).concat (by decide)
    | swap =>
      rw [instructions]
      exact (ih verify).cons (head verify)
    | check =>
      rw [instructions]
      exact (ih false).concat (by cases verify <;> decide)
    | dupIf =>
      rw [instructions]
      exact (((ih false).cons (head false)).cons (by simp)).concat (by decide)
    | verify =>
      rw [instructions]
      cases (x.cost Int64).verifyForm with
      | true => simpa using ih true
      | false => exact (ih true).append_verify x.endsBare_instructions
    | nonZero =>
      rw [instructions]
      exact ((((ih false).cons (head false)).cons (by simp)).cons (by simp)).concat (by decide)
    | zeroNotEqual =>
      rw [instructions]
      exact (ih false).concat (by decide)
  | pair op x y ihx ihy =>
    have head := y.head_instructions
    have body := (ihy false).cons (i := .op .notIf) (head false)
    cases op with
    | andV =>
      rw [instructions]
      exact (ihx false).append (ihy verify) (head verify)
    | andB =>
      rw [instructions]
      exact ((ihx false).append (ihy false) (head false)).concat (by decide)
    | orB =>
      rw [instructions]
      exact ((ihx false).append (ihy false) (head false)).concat (by decide)
    | orD =>
      rw [instructions]
      exact ((ihx false).append (body.cons (by simp)) (by simp)).concat (by decide)
    | orC =>
      rw [instructions]
      exact ((ihx false).append body (by simp)).concat (by decide)
    | orI =>
      rw [instructions]
      exact (((ihx false).cons (x.head_instructions false)).append
        ((ihy false).cons (head false)) (by simp)).concat (by decide)
  | andor x y z ihx ihy ihz =>
    rw [instructions]
    exact (((ihx false).append ((ihz false).cons (z.head_instructions false)) (by simp)).append
      ((ihy false).cons (y.head_instructions false)) (by simp)).concat (by decide)
  | thresh k subs ih =>
    rw [instructions, List.append_cons]
    exact ((fused_sumInstructions (fun x member => ih x member false) true).append
      (List.isChain_singleton _) (by simp)).concat (by cases verify <;> decide)

/-! ## Readable fragments -/

/-- A fragment whose numbers are below 2³² and whose keys are known. -/
def Readable (f : Fragment) : Prop := ∀ w ∈ f.words, w.Readable

/-- What a fragment says as symbols. -/
def symbols (f : Fragment) : List Symbol := f.words.flatMap Instruction.symbols

theorem readable_iff {f : Fragment} : f.Readable ↔ ∀ i ∈ f.instructions false, i.Readable := by
  constructor
  · intro each i member
    rw [← Instruction.readable_simpler_iff]
    intro w simple
    exact each w (List.mem_flatMap.2 ⟨i, member, simple⟩)
  · intro each w member
    obtain ⟨i, inside, simple⟩ := List.mem_flatMap.1 member
    exact (Instruction.readable_simpler_iff i).2 (each i inside) w simple

theorem symbols_eq (f : Fragment) :
    f.symbols = (f.instructions false).flatMap Instruction.symbols := by
  rw [symbols, words, List.flatMap_assoc]
  simp only [Instruction.flatMap_symbols_simpler]

theorem readable_leaf_iff {l : Leaf} : (leaf l).Readable ↔ l.Readable := by
  rw [readable_iff, instructions]
  cases l with
  | zero => simp [Leaf.instructions, Leaf.Readable, Instruction.Readable]
  | one => simp [Leaf.instructions, Leaf.Readable, Instruction.Readable]
  | pk key => simp [Leaf.instructions, Leaf.Readable, Instruction.Readable]
  | pkHash hash => simp [Leaf.instructions, Leaf.Readable, Instruction.Readable, hash.length_bytes]
  | after lock => simpa [Leaf.instructions, Leaf.Readable] using lock.toNat_lt
  | older lock => simpa [Leaf.instructions, Leaf.Readable] using lock.toNat_lt
  | hashLock f image =>
    cases f <;>
      simp [Leaf.instructions, Leaf.Readable, Instruction.Readable, image.length_bytes,
        HashFunction.width]
  | multi k keys =>
    simp [Leaf.instructions, Leaf.Readable, Instruction.Readable, or_imp, forall_and, and_comm]

theorem readable_wrap {w : Wrapper} {x : Fragment} : (wrap w x).Readable ↔ x.Readable := by
  cases w <;> simp [Readable, or_imp, forall_and]

theorem readable_pair {op : Combinator} {x y : Fragment} :
    (pair op x y).Readable ↔ x.Readable ∧ y.Readable := by
  cases op <;> simp [Readable, or_imp, forall_and]

theorem readable_andor {x y z : Fragment} :
    (andor x y z).Readable ↔ x.Readable ∧ y.Readable ∧ z.Readable := by
  simp [Readable, or_imp, forall_and, and_comm]

theorem readable_thresh {k : Int} {subs : List Fragment} :
    (thresh k subs).Readable ↔ (∀ x ∈ subs, x.Readable) ∧ k.toNat < 2 ^ 32 := by
  have sum (first : Bool) :
      (∀ w ∈ sumWords first subs, w.Readable) ↔ ∀ x ∈ subs, x.Readable := by
    induction subs generalizing first with
    | nil => simp [sumWords]
    | cons x rest ih =>
      rw [List.forall_mem_cons, ← ih false]
      cases first <;> simp [sumWords, or_imp, forall_and, Readable]
  rw [← sum true]
  simp [Readable, or_imp, forall_and]

/-- Each part has a word, and each but the first has ADD after it. -/
theorem length_sumWords (first : Bool) (subs : List Fragment) :
    2 * subs.length ≤ (sumWords first subs).length + first.toNat := by
  induction subs generalizing first with
  | nil => exact Nat.zero_le _
  | cons x rest ih =>
    have tail := ih false
    have head := List.length_pos_iff.2 x.words_ne_nil
    cases first <;>
      simp [sumWords] at tail ⊢ <;>
      omega

theorem words_sublist_sumWords {x : Fragment} {subs : List Fragment} (member : x ∈ subs)
    (first : Bool) : x.words.Sublist (sumWords first subs) := by
  induction subs generalizing first with
  | nil => cases member
  | cons y rest ih =>
    rw [sumWords]
    rcases List.mem_cons.1 member with rfl | later
    · exact (List.sublist_append_left _ _).trans (List.sublist_append_left _ _)
    · exact (ih later false).trans (List.sublist_append_right _ _)

theorem words_sublist_inner (x : Fragment) (before after : List Instruction) :
    x.words.Sublist (before ++ (x.words ++ after)) :=
  (List.sublist_append_left _ _).trans (List.sublist_append_right _ _)

/-- The words of a part are among those of the whole. -/
theorem words_sublist {f x : Fragment} (child : x ∈ f.children) : x.words.Sublist f.words := by
  cases f with
  | leaf l => cases child
  | wrap w y =>
    obtain rfl := List.mem_singleton.1 child
    have inner := x.words_sublist_inner
    cases w with
    | alt => exact words_alt x ▸ inner [_] _
    | dupIf => exact words_dupIf x ▸ inner [_, _] _
    | nonZero => exact words_nonZero x ▸ inner [_, _, _] _
    | _ => simp
  | pair op y z =>
    rcases mem_children_pair.1 child with rfl | rfl
    · cases op with
      | orI => exact words_orI x z ▸ x.words_sublist_inner [_] _
      | _ => simp
    · have inner := x.words_sublist_inner
      cases op with
      | andV => simp
      | andB => exact words_andB y x ▸ inner _ _
      | orB => exact words_orB y x ▸ inner _ _
      | orC => exact words_orC y x ▸ (inner [_] _).trans (List.sublist_append_right _ _)
      | orD => exact words_orD y x ▸ (inner [_, _] _).trans (List.sublist_append_right _ _)
      | orI =>
        exact words_orI y x ▸ ((inner [_] _).trans (List.sublist_append_right _ _)).cons _
  | andor y z t =>
    have inner := x.words_sublist_inner
    rw [words_andor]
    rcases mem_children_andor.1 child with rfl | rfl | rfl
    · exact List.sublist_append_left _ _
    · refine List.Sublist.trans ?_ (List.sublist_append_right _ _)
      exact ((inner [_] _).trans (List.sublist_append_right _ _)).cons _
    · exact (inner [_] _).trans (List.sublist_append_right _ _)
  | thresh k subs =>
    rw [words_thresh]
    exact (words_sublist_sumWords child true).trans (List.sublist_append_left _ _)

/-- A fragment with keys that are known and a script that is not out of all proportion. -/
structure Writable (f : Fragment) : Prop where
  known : ∀ w ∈ f.words, w.missingKey? = none
  short : f.words.length < 2 ^ 32

theorem Writable.part {f x : Fragment} (writable : f.Writable) (child : x ∈ f.children) :
    x.Writable := by
  have among := words_sublist child
  exact ⟨fun w member => writable.known w (among.subset member),
    Nat.lt_of_le_of_lt among.length_le writable.short⟩

theorem exists_point_of_missingKey? {key : Key}
    (known : (Instruction.key key).missingKey? = none) : ∃ p, key = .point p := by
  cases key with
  | point p => exact ⟨p, rfl⟩
  | named name => cases known

/-- The thresholds of a typed leaf are no larger than its script. -/
theorem readable_leaf_of_checked {l : Leaf} (checked : Facts.checkLeaf l = .ok ())
    (writable : (leaf l).Writable) : (leaf l).Readable := by
  rw [readable_leaf_iff]
  cases l with
  | pk key =>
    exact exists_point_of_missingKey? (writable.known _ (by
      simp [words_leaf, Leaf.instructions, Instruction.simpler]))
  | multi k keys =>
    have size : (leaf (.multi k keys)).words.length = keys.length + 3 := by simp [words_multi]
    have short := writable.short
    have threshold := Facts.checkThreshold_iff.1 checked
    refine ⟨by omega, by omega, fun key member => ?_⟩
    exact exists_point_of_missingKey? (writable.known _ (by simp [words_multi, member]))
  | _ => trivial

/-- A typed fragment that can be written can be read, as its thresholds are no larger than its
script. -/
theorem readable_of_typed {f : Fragment} {facts : Facts Int64} (typed : f.facts? = .ok facts)
    (writable : f.Writable) : f.Readable := by
  induction f generalizing facts with
  | leaf l => exact readable_leaf_of_checked (facts?_leaf_iff.1 typed).1 writable
  | wrap w x ih =>
    obtain ⟨fx, _, hx, _⟩ := facts?_wrap_iff.1 typed
    exact readable_wrap.2 (ih hx (writable.part (by simp [children])))
  | pair op x y ihx ihy =>
    obtain ⟨fx, fy, _, hx, hy, _⟩ := facts?_pair_iff.1 typed
    exact readable_pair.2 ⟨ihx hx (writable.part (by simp [children])),
      ihy hy (writable.part (by simp [children]))⟩
  | andor x y z ihx ihy ihz =>
    obtain ⟨fx, fy, fz, _, hx, hy, hz, _⟩ := facts?_andor_iff.1 typed
    exact readable_andor.2 ⟨ihx hx (writable.part (by simp [children])),
      ihy hy (writable.part (by simp [children])), ihz hz (writable.part (by simp [children]))⟩
  | thresh k subs ih =>
    obtain ⟨fs, each, checked, _⟩ := facts?_thresh_iff.1 typed
    refine readable_thresh.2 ⟨fun x member => ?_, ?_⟩
    · obtain ⟨fx, _, hx⟩ := exists_facts?_of_mem each member
      exact ih x member hx (writable.part member)
    · have threshold := Facts.checkThreshold_iff.1 checked
      have short := writable.short
      have parts := length_sumWords true subs
      have same := each.length_eq
      simp only [words_thresh, List.length_append, Bool.toNat_true] at short parts
      omega

/-! ## Bytes and tokens -/

theorem missingKey?_simpler {i w : Instruction} (simple : w ∈ i.simpler) :
    w.missingKey? = i.missingKey? := by
  cases i with
  | op o =>
    obtain ⟨p, -, rfl⟩ := List.mem_map.1 simple
    rfl
  | _ =>
    obtain rfl := List.mem_singleton.1 simple
    rfl

theorem bytes_ne_nil {i : Instruction} (known : i.missingKey? = none) : i.bytes ≠ [] := by
  cases i with
  | op o => exact List.cons_ne_nil _ _
  | bit b => cases b <;> exact List.cons_ne_nil _ _
  | number n =>
    simp only [Instruction.bytes, Instruction.numberBytes]
    split
    · exact List.cons_ne_nil _ _
    · split <;> exact List.cons_ne_nil _ _
  | data d => exact List.cons_ne_nil _ _
  | key k =>
    obtain ⟨p, rfl⟩ := exists_point_of_missingKey? known
    exact List.cons_ne_nil _ _

theorem length_simpler_le (i : Instruction) : i.simpler.length ≤ 2 := by
  cases i with
  | op o => cases o <;> decide
  | _ => exact Nat.le_succ 1

/-- What the script of a fragment is, and when there is one. -/
theorem script_eq_ok_iff {f : Fragment} {b : Bytes} :
    f.script = .ok b ↔ (∀ i ∈ f.instructions false, i.missingKey? = none) ∧
      b = (f.instructions false).flatMap Instruction.bytes ∧ b.length ≤ Script.maxSize :=
  Script.assemble_eq_ok_iff

/-- A script has at most two words for each of its bytes. -/
theorem length_words_le {f : Fragment}
    (known : ∀ i ∈ f.instructions false, i.missingKey? = none) :
    f.words.length ≤ 2 * ((f.instructions false).flatMap Instruction.bytes).length := by
  rw [words]
  generalize f.instructions false = is at known
  induction is with
  | nil => exact Nat.zero_le _
  | cons i is ih =>
    have head := length_simpler_le i
    have some := List.length_pos_iff.2 (bytes_ne_nil (known i List.mem_cons_self))
    have tail := ih fun j member => known j (List.mem_cons_of_mem _ member)
    simp only [List.flatMap_cons, List.length_append]
    omega

theorem writable_of_script {f : Fragment} {b : Bytes} (written : f.script = .ok b) :
    f.Writable := by
  obtain ⟨known, rfl, room⟩ := script_eq_ok_iff.1 written
  have words := length_words_le known
  refine ⟨fun w member => ?_, ?_⟩
  · obtain ⟨i, inside, simple⟩ := List.mem_flatMap.1 member
    rw [missingKey?_simpler simple]
    exact known i inside
  · have bound : Script.maxSize = 10000 := rfl
    omega

theorem missingKey?_of_readable {i : Instruction} (readable : i.Readable) :
    i.missingKey? = none := by
  cases i with
  | key k =>
    obtain ⟨p, rfl⟩ := readable
    rfl
  | _ => rfl

/-- The tokens of a script are the symbols of the fragment, the last one first. -/
theorem lex_script {f : Fragment} {b : Bytes} (readable : f.Readable) (written : f.script = .ok b) :
    ∃ tokens, Token.lex b = .ok tokens ∧ tokens.map Token.symbol = f.symbols.reverse := by
  obtain ⟨-, rfl, -⟩ := script_eq_ok_iff.1 written
  rw [symbols_eq]
  exact Token.lex_bytes (readable_iff.1 readable) (f.fused_instructions false)

/-- A script with the symbols of a fragment for tokens is made of the instructions of the
fragment. -/
theorem bytes_of_lex {f : Fragment} {b : Bytes} {tokens : List Token} (readable : f.Readable)
    (lexed : Token.lex b = .ok tokens) (same : tokens.map Token.symbol = f.symbols.reverse) :
    b = (f.instructions false).flatMap Instruction.bytes := by
  obtain ⟨is, readable', fused, rfl, spelled⟩ := Token.exists_instructions_of_lex lexed
  have symbols : is.flatMap Instruction.symbols
      = (f.instructions false).flatMap Instruction.symbols := by
    rw [← f.symbols_eq, ← List.reverse_inj, ← spelled, same]
  exact Script.bytes_eq_of_symbols_eq readable' (readable_iff.1 readable) fused
    (f.fused_instructions false) symbols

end Fragment

end LockScript
