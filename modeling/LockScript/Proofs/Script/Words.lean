import LockScript.Fragment.Script

/-!
The script of a fragment in words.

A word is an instruction that is no VERIFY form: each VERIFY form stands for two words. In words the
script of a composition is put together from the words of its parts without regard to what follows,
as a VERIFY that an opcode takes in is a word of its own again. Tokens and the execution of a script
see words only.
-/

namespace LockScript

/-- An instruction as one or two words. -/
def Instruction.simpler : Instruction → List Instruction
  | .op o => o.simpler.map .op
  | i => [i]

namespace Fragment

/-- The words of the script of a fragment. -/
def words (f : Fragment) : List Instruction := (f.instructions false).flatMap Instruction.simpler

/-- The words of the parts of a threshold, each but the very first followed by ADD. -/
def sumWords (first : Bool) : List Fragment → List Instruction
  | [] => []
  | x :: rest => x.words ++ (if first then [] else [.op .add]) ++ sumWords false rest

/-- A VERIFY after a fragment is the same word whether the last opcode takes it in or not. -/
theorem words_verified (f : Fragment) :
    (f.instructions true).flatMap Instruction.simpler
        ++ (if (f.cost Int64).verifyForm then [] else [.op .verify])
      = f.words ++ [.op .verify] := by
  induction f with
  | leaf l =>
    cases l <;>
      simp [words, instructions, Leaf.instructions, cost, Cost.ofExact, Cost.ofLeaf, Cost.zero,
        Cost.one, Cost.pk, Cost.pkHash, Cost.timeLock, Cost.hashLock, Cost.multi,
        Instruction.simpler, Opcode.simpler, Opcode.orVerify, Opcode.verifyForm?]
  | wrap w x ih =>
    cases w with
    | swap =>
      have kept : ((wrap .swap x).cost Int64).verifyForm = (x.cost Int64).verifyForm := by
        simp [cost, Cost.wrap]
      rw [kept]
      simpa [words, instructions, Instruction.simpler] using ih
    | check =>
      simp [words, instructions, cost, Cost.wrap, Instruction.simpler, Opcode.simpler,
        Opcode.orVerify, Opcode.verifyForm?]
    | _ => simp [words, instructions, cost, Cost.wrap, Cost.addOps, Cost.withDissat]
  | pair op x y _ ih =>
    cases op with
    | andV =>
      have kept : ((pair .andV x y).cost Int64).verifyForm = (y.cost Int64).verifyForm := by
        simp [cost, Cost.pair]
      rw [kept]
      simpa [words, instructions] using ih
    | _ => simp [words, instructions, cost, Cost.pair, Cost.addOps]
  | andor x y z => simp [words, instructions, cost, Cost.andor, Cost.addOps]
  | thresh k subs =>
    simp [words, instructions, cost, Cost.threshold, Instruction.simpler, Opcode.simpler,
      Opcode.orVerify, Opcode.verifyForm?]

/-! ## Words of compositions -/

theorem words_leaf (l : Leaf) :
    (leaf l).words = (l.instructions false).flatMap Instruction.simpler := by
  simp [words, instructions]

theorem words_pkHash (hash : Digest 20) :
    (leaf (.pkHash hash)).words
      = [.op .dup, .op .hash160, .data hash.bytes, .op .equal, .op .verify] := by
  simp [words_leaf, Leaf.instructions, Instruction.simpler, Opcode.simpler]

theorem words_hashLock (f : HashFunction) (image : Digest f.width) :
    (leaf (.hashLock f image)).words = [.op .size, .number 32, .op .equal, .op .verify,
      .op f.opcode, .data image.bytes, .op .equal] := by
  cases f <;> rfl

theorem words_multi (k : Int) (keys : List Key) :
    (leaf (.multi k keys)).words
      = .number k.toNat :: (keys.map .key ++ [.number keys.length, .op .checkMultiSig]) := by
  have each : (keys.map Instruction.key).flatMap Instruction.simpler = keys.map .key := by
    induction keys with
    | nil => rfl
    | cons key keys ih =>
      rw [List.map_cons, List.flatMap_cons, ih]
      rfl
  simp [words_leaf, Leaf.instructions, each, Instruction.simpler, Opcode.simpler, Opcode.orVerify]

@[simp] theorem words_alt (x : Fragment) :
    (wrap .alt x).words = .op .toAltStack :: (x.words ++ [.op .fromAltStack]) := by
  simp [words, instructions, Instruction.simpler, Opcode.simpler]

@[simp] theorem words_swap (x : Fragment) :
    (wrap .swap x).words = .op .swap :: x.words := by
  simp [words, instructions, Instruction.simpler, Opcode.simpler]

@[simp] theorem words_check (x : Fragment) :
    (wrap .check x).words = x.words ++ [.op .checkSig] := by
  simp [words, instructions, Instruction.simpler, Opcode.simpler, Opcode.orVerify]

@[simp] theorem words_dupIf (x : Fragment) :
    (wrap .dupIf x).words = .op .dup :: .op .ifOp :: (x.words ++ [.op .endIf]) := by
  simp [words, instructions, Instruction.simpler, Opcode.simpler]

@[simp] theorem words_verify (x : Fragment) :
    (wrap .verify x).words = x.words ++ [.op .verify] := by
  rw [← words_verified x, words, instructions]
  cases (x.cost Int64).verifyForm <;> simp [Instruction.simpler, Opcode.simpler]

@[simp] theorem words_nonZero (x : Fragment) :
    (wrap .nonZero x).words
      = .op .size :: .op .zeroNotEqual :: .op .ifOp :: (x.words ++ [.op .endIf]) := by
  simp [words, instructions, Instruction.simpler, Opcode.simpler]

@[simp] theorem words_zeroNotEqual (x : Fragment) :
    (wrap .zeroNotEqual x).words = x.words ++ [.op .zeroNotEqual] := by
  simp [words, instructions, Instruction.simpler, Opcode.simpler]

@[simp] theorem words_andV (x y : Fragment) :
    (pair .andV x y).words = x.words ++ y.words := by
  simp [words, instructions]

@[simp] theorem words_andB (x y : Fragment) :
    (pair .andB x y).words = x.words ++ (y.words ++ [.op .boolAnd]) := by
  simp [words, instructions, Instruction.simpler, Opcode.simpler]

@[simp] theorem words_orB (x z : Fragment) :
    (pair .orB x z).words = x.words ++ (z.words ++ [.op .boolOr]) := by
  simp [words, instructions, Instruction.simpler, Opcode.simpler]

@[simp] theorem words_orC (x z : Fragment) :
    (pair .orC x z).words = x.words ++ .op .notIf :: (z.words ++ [.op .endIf]) := by
  simp [words, instructions, Instruction.simpler, Opcode.simpler]

@[simp] theorem words_orD (x z : Fragment) :
    (pair .orD x z).words = x.words ++ .op .ifDup :: .op .notIf :: (z.words ++ [.op .endIf]) := by
  simp [words, instructions, Instruction.simpler, Opcode.simpler]

@[simp] theorem words_orI (x z : Fragment) :
    (pair .orI x z).words
      = .op .ifOp :: (x.words ++ .op .elseOp :: (z.words ++ [.op .endIf])) := by
  simp [words, instructions, Instruction.simpler, Opcode.simpler]

@[simp] theorem words_andor (x y z : Fragment) :
    (andor x y z).words
      = x.words ++ .op .notIf :: (z.words ++ .op .elseOp :: (y.words ++ [.op .endIf])) := by
  simp [words, instructions, Instruction.simpler, Opcode.simpler]

theorem flatMap_sumInstructions (first : Bool) (subs : List Fragment) :
    (sumInstructions first subs).flatMap Instruction.simpler = sumWords first subs := by
  induction subs generalizing first with
  | nil => simp [sumInstructions, sumWords]
  | cons x rest ih =>
    cases first <;>
      simp [sumInstructions, sumWords, words, ih, Instruction.simpler, Opcode.simpler]

@[simp] theorem words_thresh (k : Int) (subs : List Fragment) :
    (thresh k subs).words = sumWords true subs ++ [.number k.toNat, .op .equal] := by
  simp [words, instructions, flatMap_sumInstructions, Instruction.simpler, Opcode.simpler,
    Opcode.orVerify]

/-- A script is never empty. -/
theorem words_ne_nil (f : Fragment) : f.words ≠ [] := by
  induction f with
  | leaf l => cases l <;> simp [words_leaf, Leaf.instructions, Instruction.simpler, Opcode.simpler]
  | wrap w x ih => cases w <;> simp [ih]
  | pair op x y ihx ihy => cases op <;> simp [ihx]
  | andor x y z => simp
  | thresh k subs => simp

/-- Fragments are nested no deeper than their scripts have words. -/
theorem depth_le_length_words (f : Fragment) : f.depth ≤ f.words.length := by
  induction f with
  | leaf l => exact List.length_pos_iff.2 (words_ne_nil _)
  | wrap w x ih => cases w <;> simp [depth] <;> omega
  | pair op x y ihx ihy =>
    have hx := List.length_pos_iff.2 (words_ne_nil x)
    have hy := List.length_pos_iff.2 (words_ne_nil y)
    cases op <;> simp [depth] <;> omega
  | andor x y z ihx ihy ihz => simp [depth]; omega
  | thresh k subs ih =>
    have parts : ∀ first, maxDepth subs ≤ (sumWords first subs).length := by
      clear k
      induction subs with
      | nil => simp [maxDepth]
      | cons x rest ihr =>
        intro first
        have head := ih x (by simp)
        have tail := ihr (fun y member => ih y (by simp [member])) false
        simp [maxDepth, sumWords]
        omega
    have bound := parts true
    simp [depth]
    omega

end Fragment

end LockScript
