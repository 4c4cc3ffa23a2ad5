import LockScript.Key.Basic

/-!
Fragments: the pieces a locking script is composed of.

A fragment is a leaf, a wrapper around one fragment, a combination of two, the three-way `andor`, or a
threshold over any number. Nothing here says that the pieces fit together; that is the business of the
types.
-/

namespace LockScript

/-- A fragment without parts. -/
inductive Leaf where
  /-- Never satisfied: `0`. -/
  | zero
  /-- Always satisfied: `1`. -/
  | one
  /-- The key itself: `pk(key)`. -/
  | pk (key : Key)
  /-- A key by its hash: `pk_h(hash)`. -/
  | pkHash (hash : Digest 20)
  /-- An absolute lock time: `after(n)`. -/
  | after (lock : UInt32)
  /-- A relative lock time: `older(n)`. -/
  | older (lock : UInt32)
  /-- A 32 byte preimage of `image`: `sha256(h)`, `hash256(h)`, `ripemd160(h)` or `hash160(h)`. -/
  | hashLock (f : HashFunction) (image : Digest f.width)
  /-- Signatures of `k` of the keys: `thresh_m(k,key1,...,keyn)`. -/
  | multi (k : Int) (keys : List Key)

/-- What is put around a fragment without changing what it requires. -/
inductive Wrapper where
  /-- `a:X`, TOALTSTACK X FROMALTSTACK. -/
  | alt
  /-- `s:X`, SWAP X. -/
  | swap
  /-- `c:X`, X CHECKSIG. -/
  | check
  /-- `d:X`, DUP IF X ENDIF. -/
  | dupIf
  /-- `v:X`, X VERIFY. -/
  | verify
  /-- `j:X`, SIZE 0NOTEQUAL IF X ENDIF. -/
  | nonZero
  /-- `n:X`, X 0NOTEQUAL. -/
  | zeroNotEqual
  deriving DecidableEq, Repr

/-- A combination of two fragments. -/
inductive Combinator where
  /-- `and_v(X,Y)`, X Y. -/
  | andV
  /-- `and_b(X,Y)`, X Y BOOLAND. -/
  | andB
  /-- `or_b(X,Z)`, X Z BOOLOR. -/
  | orB
  /-- `or_d(X,Z)`, X IFDUP NOTIF Z ENDIF. -/
  | orD
  /-- `or_c(X,Z)`, X NOTIF Z ENDIF. -/
  | orC
  /-- `or_i(X,Z)`, IF X ELSE Z ENDIF. -/
  | orI
  deriving DecidableEq, Repr

/-- A fragment of a locking script. -/
inductive Fragment where
  | leaf (l : Leaf)
  | wrap (w : Wrapper) (x : Fragment)
  | pair (op : Combinator) (x y : Fragment)
  /-- `andor(X,Y,Z)`, X NOTIF Z ELSE Y ENDIF. -/
  | andor (x y z : Fragment)
  /-- `thresh(k,X1,...,Xn)`, X1 X2 ADD ... Xn ADD k EQUAL. -/
  | thresh (k : Int) (subs : List Fragment)

namespace Fragment

/-- Induction in which the parts of a threshold all satisfy the motive. -/
@[induction_eliminator]
theorem induction {motive : Fragment → Prop}
    (leaf : ∀ l, motive (.leaf l))
    (wrap : ∀ w x, motive x → motive (.wrap w x))
    (pair : ∀ op x y, motive x → motive y → motive (.pair op x y))
    (andor : ∀ x y z, motive x → motive y → motive z → motive (.andor x y z))
    (thresh : ∀ k subs, (∀ x ∈ subs, motive x) → motive (.thresh k subs))
    (f : Fragment) : motive f :=
  @Fragment.rec motive (fun subs => ∀ x ∈ subs, motive x)
    leaf wrap pair andor thresh
    (fun _ h => absurd h List.not_mem_nil)
    (fun _ _ head tail _ h => (List.mem_cons.1 h).elim (fun eq => eq ▸ head) (tail _))
    f

/-- The parts of a fragment, in the order in which they are written. -/
def children : Fragment → List Fragment
  | .leaf _ => []
  | .wrap _ x => [x]
  | .pair _ x y => [x, y]
  | .andor x y z => [x, y, z]
  | .thresh _ subs => subs

mutual

/-- The number of fragments on the longest way down; a leaf has depth 1. -/
def depth : Fragment → Nat
  | .leaf _ => 1
  | .wrap _ x => x.depth + 1
  | .pair _ x y => max x.depth y.depth + 1
  | .andor x y z => max x.depth (max y.depth z.depth) + 1
  | .thresh _ subs => maxDepth subs + 1

/-- The depth of the deepest of the fragments, 0 if there are none. -/
def maxDepth : List Fragment → Nat
  | [] => 0
  | x :: rest => max x.depth (maxDepth rest)

end

/-- Whether this is the bare fragment `0`. -/
def isZero : Fragment → Bool
  | .leaf .zero => true
  | _ => false

/-- Whether this is the bare fragment `1`. -/
def isOne : Fragment → Bool
  | .leaf .one => true
  | _ => false

end Fragment

/-- The keys of a leaf. A key that is only given by its hash is none of them. -/
def Leaf.keys : Leaf → List Key
  | .pk key => [key]
  | .multi _ keys => keys
  | _ => []

namespace Fragment

mutual

/-- The keys of a fragment, part by part. A key that is only given by its hash is none of them. -/
def keys : Fragment → List Key
  | .leaf l => l.keys
  | .wrap _ x => x.keys
  | .pair _ x y => x.keys ++ y.keys
  | .andor x y z => x.keys ++ y.keys ++ z.keys
  | .thresh _ subs => keysOf subs

/-- The keys of several fragments in order. -/
def keysOf : List Fragment → List Key
  | [] => []
  | x :: rest => x.keys ++ keysOf rest

end

/-- The keys are those of the fragments one by one. -/
theorem keysOf_eq_flatMap (subs : List Fragment) : keysOf subs = subs.flatMap keys := by
  induction subs with
  | nil => rfl
  | cons x rest ih => rw [keysOf, ih, List.flatMap_cons]

end Fragment

end LockScript
