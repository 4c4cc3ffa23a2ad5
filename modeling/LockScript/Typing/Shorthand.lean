import LockScript.Typing.Facts

/-!
The types of shorthands: `t:X` for `and_v(X,1)`, `l:X` and `u:X` for a choice between `0` and X, and
`and_n(X,Y)` for `andor(X,Y,0)`.

Each can be typed from its part alone. `t:X` is refused as a wrapper where X is not a V, and the
malleability of `u:X` with nothing known about X but its dissatisfactions is `withDissat`.
-/

namespace LockScript

namespace Correctness

/-- The type of `t:X`. -/
def thenOne (c : Correctness) : Except Mistype Correctness :=
  if c.base ≠ .V then .error (.wrapped c.base) else .ok ⟨.B, c.input, false, true⟩

/-- The type of `u:X`. -/
def orZero (c : Correctness) : Except Mistype Correctness := pair .orI c zero

/-- The type of `l:X`. -/
def zeroOr (c : Correctness) : Except Mistype Correctness := pair .orI zero c

/-- The type of `and_n(X,Y)`. -/
def andN (x y : Correctness) : Except Mistype Correctness := andor x y zero

end Correctness

namespace Malleability

/-- The type of `t:X`. -/
def thenOne (m : Malleability) : Malleability := ⟨.none, m.safe, m.nonMalleable⟩

/-- The type of `u:X`. -/
def orZero (m : Malleability) : Malleability := pair .orI m zero

/-- The type of `l:X`. -/
def zeroOr (m : Malleability) : Malleability := pair .orI zero m

/-- The type of `and_n(X,Y)`. -/
def andN (x y : Malleability) : Malleability := andor x y zero

end Malleability

namespace Cost

variable {ν : Type} [Add ν] [Counting ν]

/-- The cost of `t:X`. -/
def thenOne (c : Cost ν) : Cost ν := pair .andV c (ofExact one)

/-- The cost of `u:X`. -/
def orZero (c : Cost ν) : Cost ν := pair .orI c (ofExact zero)

/-- The cost of `l:X`. -/
def zeroOr (c : Cost ν) : Cost ν := pair .orI (ofExact zero) c

/-- The cost of `and_n(X,Y)`. -/
def andN (x y : Cost ν) : Cost ν := andor x y (ofExact zero)

end Cost

end LockScript
