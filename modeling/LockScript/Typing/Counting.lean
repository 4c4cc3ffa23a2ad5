/-!
The numbers that costs are counted in.

The integers are exact. Costs that are stored are words of 64 bits with a sign; a sum or difference of
words that leaves their range wraps around.
-/

namespace LockScript

/-- Numbers that things are counted in. -/
class Counting (ν : Type) where
  /-- The number that an integer comes to. -/
  ofInt : Int → ν
  /-- The integer that a number stands for. -/
  toInt : ν → Int

namespace Counting

instance : Counting Int := ⟨fun n => n, fun n => n⟩

instance : Counting Int64 := ⟨Int64.ofInt, Int64.toInt⟩

@[simp] theorem ofInt_int (n : Int) : (ofInt n : Int) = n := rfl

@[simp] theorem toInt_int (n : Int) : toInt n = n := rfl

/-- The numbers added up. -/
def sum {ν : Type} [Add ν] [Counting ν] (ns : List ν) : ν := ns.foldr (· + ·) (ofInt 0)

/-- Integers are added up exactly. -/
@[simp] theorem sum_int (ns : List Int) : sum ns = ns.foldr (· + ·) 0 := rfl

end Counting

end LockScript
