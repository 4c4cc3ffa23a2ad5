import LockScript.Fragment.Basic
import LockScript.Typing.Counting

/-!
Costs: the size of the script of a fragment and the operations it takes.

Every opcode that is no push counts as an operation, run or not. On top of these a CHECKMULTISIG that
is run counts its keys, so that the count depends on how the fragment is satisfied or dissatisfied. A
count that is `none` belongs to something that cannot be done.

Costs compose by the same rules whatever they are counted in. In integers the cost of a fragment is
exact. The costs that are stored are counted in words of 64 bits, and there a sum that is too large
wraps around.
-/

namespace LockScript

/-- Where a fragment may be used. -/
inductive Legacy where
  /-- Also in scripts from before segregated witness. -/
  | safe
  /-- Only under the rules of segregated witness for keys and the argument of IF. -/
  | segwitOnly
  /-- A code of stored data that stands for neither. -/
  | other (code : UInt8)
  deriving DecidableEq, Repr

namespace Legacy

/-- The name of a class. -/
def name : Legacy → String
  | .segwitOnly => "SegwitOnly"
  | _ => "LegacySafe"

/-- A composition is safe only if both parts are. -/
def both (a b : Legacy) : Legacy := if a = .safe ∧ b = .safe then .safe else .segwitOnly

end Legacy

/-- A number of operations, or `none` for something that cannot be done. -/
abbrev OpCount (ν : Type) := Option ν

namespace OpCount

variable {ν : Type} [Add ν] [Counting ν]

/-- The count of doing both. -/
def and : OpCount ν → OpCount ν → OpCount ν
  | some a, some b => some (a + b)
  | _, _ => none

/-- The larger count of doing one of the two. -/
def or : OpCount ν → OpCount ν → OpCount ν
  | none, b => b
  | a, none => a
  | some a, some b => some (if Counting.toInt b ≤ Counting.toInt a then a else b)

/-- The count with `n` more operations. -/
def plus (a : OpCount ν) (n : ν) : OpCount ν := OpCount.and a (some n)

end OpCount

/-- The cost of a fragment. -/
structure Cost (ν : Type) where
  legacy : Legacy
  /-- The length of the script in bytes. -/
  size : ν
  /-- The script ends in EQUAL, CHECKSIG or CHECKMULTISIG, which have a VERIFY form of their own. -/
  verifyForm : Bool
  /-- The opcodes of the script that are no pushes. -/
  staticOps : ν
  /-- The operations of a satisfaction. -/
  satOps : OpCount ν
  /-- The operations of a dissatisfaction. -/
  dissatOps : OpCount ν
  deriving DecidableEq, Repr

namespace Cost

/-- The length of the shortest push of a number. -/
def numberSize (n : Int) : Int :=
  if n ≤ 0x10 then 1
  else if n < 0x80 then 2
  else if n < 0x8000 then 3
  else if n < 0x800000 then 4
  else if n < 0x80000000 then 5
  else 6

/-- The length of the push of a key. -/
def keySize : Int := 34

/-! ## Leaves -/

/-- The cost of `0`. -/
def zero : Cost Int := ⟨.safe, 1, false, 0, none, some 0⟩

/-- The cost of `1`. -/
def one : Cost Int := ⟨.safe, 1, false, 0, some 0, none⟩

/-- The cost of `pk`. -/
def pk : Cost Int := ⟨.safe, keySize, false, 0, some 0, some 0⟩

/-- The cost of `pk_h`. -/
def pkHash : Cost Int := ⟨.segwitOnly, 24, false, 3, some 3, some 3⟩

/-- The cost of `thresh_m` with `k` of `n` keys. -/
def multi (k n : Int) : Cost Int :=
  ⟨.safe, numberSize k + keySize * n + numberSize n + 1, true, 1, some (n + 1), some (n + 1)⟩

/-- The cost of a hash lock. -/
def hashLock (f : HashFunction) : Cost Int := ⟨.safe, 7 + f.width, true, 4, some 4, some 4⟩

/-- The cost of a lock time. -/
def timeLock (lock : UInt32) : Cost Int := ⟨.safe, numberSize lock.toNat + 1, false, 1, some 1, none⟩

/-- The cost of a leaf. -/
def ofLeaf : Leaf → Cost Int
  | .zero => zero
  | .one => one
  | .pk _ => pk
  | .pkHash _ => pkHash
  | .after lock => timeLock lock
  | .older lock => timeLock lock
  | .hashLock f _ => hashLock f
  | .multi k keys => multi k keys.length

/-! ## Compositions -/

variable {ν : Type} [Add ν] [Sub ν] [Counting ν]

/-- An exact cost in other numbers. -/
def ofExact (c : Cost Int) : Cost ν :=
  ⟨c.legacy, Counting.ofInt c.size, c.verifyForm, Counting.ofInt c.staticOps,
    c.satOps.map Counting.ofInt, c.dissatOps.map Counting.ofInt⟩

/-- In integers an exact cost stays as it is. -/
@[simp] theorem ofExact_int (c : Cost Int) : (ofExact c : Cost Int) = c := by
  rcases c with ⟨_, _, _, _, _ | _, _ | _⟩ <;> rfl

/-- The cost with `n` more opcodes of one byte each, run in every case. -/
def addOps (c : Cost ν) (n : Int) : Cost ν :=
  let more : ν := Counting.ofInt n
  ⟨c.legacy, c.size + more, false, c.staticOps + more, c.satOps.plus more, c.dissatOps.plus more⟩

/-- The cost with a dissatisfaction that runs nothing but what is counted in any case. -/
def withDissat (c : Cost ν) : Cost ν := { c with dissatOps := some c.staticOps }

/-- The cost of a wrapper around a fragment. -/
def wrap (w : Wrapper) (c : Cost ν) : Cost ν :=
  match w with
  | .alt => c.addOps 2
  | .swap => { c.addOps 1 with verifyForm := c.verifyForm }
  | .check => { c.addOps 1 with verifyForm := true }
  | .dupIf => { (c.addOps 3).withDissat with legacy := .segwitOnly }
  | .verify => { c.addOps (if c.verifyForm then 0 else 1) with dissatOps := none }
  | .nonZero => (c.addOps 4).withDissat
  | .zeroNotEqual => c.addOps 1

/-- The cost of two scripts in a row, with the operations given for them. -/
def inRow (l r : Cost ν) (sat dissat : OpCount ν) : Cost ν :=
  ⟨l.legacy.both r.legacy, l.size + r.size, false, l.staticOps + r.staticOps, sat, dissat⟩

/-- The operations of satisfying the second only if the first is dissatisfied, where the second is
counted even if it is not run. -/
def elseOps (l r : Cost ν) : OpCount ν :=
  (l.satOps.plus r.staticOps).or (l.dissatOps.and r.satOps)

/-- The cost of a combination of two fragments. -/
def pair (op : Combinator) (l r : Cost ν) : Cost ν :=
  match op with
  | .andB => (inRow l r (l.satOps.and r.satOps) (l.dissatOps.and r.dissatOps)).addOps 1
  | .andV => { inRow l r (l.satOps.and r.satOps) none with verifyForm := r.verifyForm }
  | .orB =>
    (inRow l r ((l.satOps.and r.dissatOps).or (l.dissatOps.and r.satOps))
      (l.dissatOps.and r.dissatOps)).addOps 1
  | .orD => (inRow l r (elseOps l r) (l.dissatOps.and r.dissatOps)).addOps 3
  | .orC => (inRow l r (elseOps l r) none).addOps 2
  | .orI =>
    { (inRow l r ((l.satOps.plus r.staticOps).or (r.satOps.plus l.staticOps))
        ((l.dissatOps.plus r.staticOps).or (r.dissatOps.plus l.staticOps))).addOps 3 with
      legacy := .segwitOnly }

/-- The cost of `andor(X,Y,Z)`. -/
def andor (x y z : Cost ν) : Cost ν :=
  let plain : Cost ν :=
    ⟨x.legacy.both (y.legacy.both z.legacy), x.size + y.size + z.size, false,
      x.staticOps + y.staticOps + z.staticOps,
      ((x.satOps.and y.satOps).plus z.staticOps).or ((x.dissatOps.and z.satOps).plus y.staticOps),
      (x.dissatOps.and z.dissatOps).plus y.staticOps⟩
  plain.addOps 3

/-- The list with `n` put before the first smaller number. -/
def insertDown (n : ν) : List ν → List ν
  | [] => [n]
  | m :: rest =>
    if Counting.toInt m < Counting.toInt n then n :: m :: rest else m :: insertDown n rest

/-- The numbers in descending order. -/
def sortDown : List ν → List ν
  | [] => []
  | n :: rest => insertDown n (sortDown rest)

/-- The number of parts that cannot be dissatisfied and have to be satisfied in any case. -/
def forcedSubs (subs : List (Cost ν)) : Nat := subs.countP fun c => c.dissatOps.isNone

/-- The operations of dissatisfying every part that can be, and satisfying the others. -/
def baseOps (subs : List (Cost ν)) : OpCount ν :=
  subs.foldl (fun n c => OpCount.and n (if c.dissatOps.isSome then c.dissatOps else c.satOps))
    (some (Counting.ofInt 0))

/-- For each part that can be both satisfied and dissatisfied, the operations that satisfying it
takes beyond dissatisfying it. -/
def extraOps (subs : List (Cost ν)) : List ν :=
  subs.filterMap fun c => match c.satOps, c.dissatOps with
    | some sat, some dissat => some (sat - dissat)
    | _, _ => none

/-- The most operations a satisfaction of `need` parts and of those that have to be satisfied takes.
Every part starts out dissatisfied where it can be, and those whose satisfaction adds the most are
satisfied. -/
def needOps (need : Int) (subs : List (Cost ν)) : OpCount ν :=
  let extra := extraOps subs
  if need < 0 ∨ need > extra.length then none
  else (baseOps subs).plus (Counting.sum ((sortDown extra).take need.toNat))

/-- The most operations a satisfaction of exactly `k` parts takes beyond those of the threshold
itself. -/
def thresholdSat (k : Int) (subs : List (Cost ν)) : OpCount ν :=
  needOps (k - forcedSubs subs) subs

/-- The cost of a threshold of `k` out of `n`, where `subs` are the `n` parts. -/
def threshold (k : Int) (n : ν) (subs : List (Cost ν)) : Cost ν where
  legacy := subs.foldl (fun l c => l.both c.legacy) .safe
  size := n + Counting.ofInt (numberSize k) + Counting.sum (subs.map size)
  verifyForm := true
  staticOps := n + Counting.sum (subs.map staticOps)
  satOps := (thresholdSat k subs).plus n
  dissatOps :=
    (subs.foldl (fun n c => OpCount.and n c.dissatOps) (some (Counting.ofInt 0))).plus n

end Cost

namespace Fragment

mutual

/-- The cost of a fragment, counted in the numbers given. -/
def cost (ν : Type) [Add ν] [Sub ν] [Counting ν] : Fragment → Cost ν
  | .leaf l => .ofExact (.ofLeaf l)
  | .wrap w x => .wrap w (x.cost ν)
  | .pair op x y => .pair op (x.cost ν) (y.cost ν)
  | .andor x y z => .andor (x.cost ν) (y.cost ν) (z.cost ν)
  | .thresh k subs => .threshold k (Counting.ofInt subs.length) (costs ν subs)

/-- The costs of several fragments. -/
def costs (ν : Type) [Add ν] [Sub ν] [Counting ν] : List Fragment → List (Cost ν)
  | [] => []
  | x :: rest => x.cost ν :: costs ν rest

end

end Fragment

end LockScript
