import LockScript.Script.Decoder
import LockScript.Proofs.Fragment.Script
import LockScript.Proofs.Typing.Courses

/-!
The rules of the decoder.

Where a token stood matters for errors only. With offsets left out a state of the decoder is a
`View`, and the rules by which a view is followed by another are `Begins`, for the last symbols of a
fragment, and `Meets`, for everything that can be expected. `Yields` follows the rules until a
single fragment is left. That the rules are those of the decoder is shown with its steps and its
runs.
-/

namespace LockScript

/-- A `thresh_m` of no more keys than are allowed, or any other leaf. -/
def Leaf.FewKeys : Leaf → Prop
  | .multi _ keys => keys.length ≤ maxMultiKeys
  | _ => True

/-! ## Leaves and parts -/

namespace Fragment

/-- The leaves of a part are among those of the whole. -/
theorem leaves_subset {f x : Fragment} (child : x ∈ f.children) : x.leaves ⊆ f.leaves := by
  cases f with
  | leaf l => cases child
  | wrap w y =>
    obtain rfl := List.mem_singleton.1 child
    exact List.Subset.refl _
  | pair op y z =>
    rcases mem_children_pair.1 child with rfl | rfl <;> simp [leaves]
  | andor y z t =>
    rcases mem_children_andor.1 child with rfl | rfl | rfl <;>
      simp [leaves]
  | thresh k subs =>
    intro l member
    rw [leaves, leavesOf_eq_flatMap]
    exact List.mem_flatMap.2 ⟨x, child, member⟩

theorem depth_lt_of_child {f x : Fragment} (child : x ∈ f.children) : x.depth < f.depth := by
  cases f with
  | leaf l => cases child
  | wrap w y =>
    obtain rfl := List.mem_singleton.1 child
    exact Nat.lt_succ_self _
  | pair op y z =>
    rcases mem_children_pair.1 child with rfl | rfl <;> rw [depth] <;> omega
  | andor y z t =>
    rcases mem_children_andor.1 child with rfl | rfl | rfl <;>
      rw [depth] <;> omega
  | thresh k subs =>
    rw [depth, Nat.lt_succ_iff]
    induction subs with
    | nil => cases child
    | cons y rest ih =>
      rw [maxDepth]
      rcases List.mem_cons.1 child with rfl | later
      · exact Nat.le_max_left _ _
      · exact (ih later).trans (Nat.le_max_right _ _)

theorem exists_facts?_of_child {f x : Fragment} {facts : Facts Int64} (typed : f.facts? = .ok facts)
    (child : x ∈ f.children) : ∃ fx : Facts Int64, x.facts? = .ok fx := by
  cases f with
  | leaf l => cases child
  | wrap w y =>
    obtain ⟨fy, _, hy, _⟩ := facts?_wrap_iff.1 typed
    obtain rfl := List.mem_singleton.1 child
    exact ⟨fy, hy⟩
  | pair op y z =>
    obtain ⟨fy, fz, _, hy, hz, _⟩ := facts?_pair_iff.1 typed
    rcases mem_children_pair.1 child with rfl | rfl
    · exact ⟨fy, hy⟩
    · exact ⟨fz, hz⟩
  | andor y z t =>
    obtain ⟨fy, fz, ft, _, hy, hz, ht, _⟩ := facts?_andor_iff.1 typed
    rcases mem_children_andor.1 child with rfl | rfl | rfl
    · exact ⟨fy, hy⟩
    · exact ⟨fz, hz⟩
    · exact ⟨ft, ht⟩
  | thresh k subs =>
    obtain ⟨fs, each, _⟩ := facts?_thresh_iff.1 typed
    obtain ⟨fx, -, hx⟩ := exists_facts?_of_mem each child
    exact ⟨fx, hx⟩

/-- Fragments that are checked one by one are the fragments of a list. -/
theorem exists_parts {P : Checked → Prop} {subs : List Fragment}
    (each : ∀ x ∈ subs, ∃ mx : Checked, mx.fragment = x ∧ P mx) :
    ∃ ms : List Checked, ms.map Checked.fragment = subs ∧ ∀ mx ∈ ms, P mx := by
  induction subs with
  | nil => exact ⟨[], rfl, List.forall_mem_nil _⟩
  | cons x rest ih =>
    obtain ⟨⟨mx, same, holds⟩, others⟩ := List.forall_mem_cons.1 each
    obtain ⟨ms, sames, hold⟩ := ih others
    exact ⟨mx :: ms, by rw [List.map_cons, same, sames], List.forall_mem_cons.2 ⟨holds, hold⟩⟩

/-- Induction from the parts of a fragment to the whole. -/
theorem induction_on_children {motive : Fragment → Prop}
    (step : ∀ f, (∀ x ∈ f.children, motive x) → motive f) (f : Fragment) : motive f := by
  induction f with
  | leaf l => exact step _ (List.forall_mem_nil _)
  | wrap w x ih => exact step _ (List.forall_mem_singleton.2 ih)
  | pair op x y ihx ihy =>
    exact step _ (List.forall_mem_cons.2 ⟨ihx, List.forall_mem_singleton.2 ihy⟩)
  | andor x y z ihx ihy ihz =>
    exact step _ (List.forall_mem_cons.2
      ⟨ihx, List.forall_mem_cons.2 ⟨ihy, List.forall_mem_singleton.2 ihz⟩⟩)
  | thresh k subs ih => exact step _ ih

/-- A part of the fragment, at any depth, or the fragment itself. -/
inductive Contains (f : Fragment) : Fragment → Prop
  | whole : Contains f f
  | part {x y : Fragment} (inside : Contains f x) (child : y ∈ x.children) : Contains f y

theorem Contains.of_child {f x y : Fragment} (child : x ∈ f.children) (inside : x.Contains y) :
    f.Contains y := by
  induction inside with
  | whole => exact .part .whole child
  | part _ next ih => exact .part ih next

/-- What is inside a fragment is the fragment itself or inside one of its parts. -/
theorem contains_iff {f y : Fragment} :
    f.Contains y ↔ y = f ∨ ∃ x ∈ f.children, x.Contains y := by
  constructor
  · intro inside
    induction inside with
    | whole => exact .inl rfl
    | part _ child ih =>
      rcases ih with rfl | ⟨x, first, inside⟩
      · exact .inr ⟨_, child, .whole⟩
      · exact .inr ⟨x, first, .part inside child⟩
  · rintro (rfl | ⟨x, child, inside⟩)
    · exact .whole
    · exact .of_child child inside

theorem Contains.exists_facts? {f y : Fragment} {facts : Facts Int64} (inside : f.Contains y)
    (typed : f.facts? = .ok facts) : ∃ fy : Facts Int64, y.facts? = .ok fy := by
  induction inside with
  | whole => exact ⟨facts, typed⟩
  | part _ child ih =>
    obtain ⟨fx, hx⟩ := ih
    exact exists_facts?_of_child hx child

end Fragment

/-! ## Fragments as the decoder sees them -/

namespace Fragment

/-- The symbols of a fragment, the last one first. -/
def spelled (f : Fragment) : List Symbol := f.symbols.reverse

/-- The symbols of parts of a threshold that are each followed by ADD, the last one first. -/
def spelledParts (parts : List Fragment) : List Symbol :=
  ((sumWords false parts).flatMap Instruction.symbols).reverse

section Compositions

variable (x y z : Fragment)

@[simp] theorem spelled_alt :
    (wrap .alt x).spelled = .op .fromAltStack :: (x.spelled ++ [.op .toAltStack]) := by
  simp [spelled, symbols, Instruction.symbols, Opcode.simpler]

@[simp] theorem spelled_swap : (wrap .swap x).spelled = x.spelled ++ [.op .swap] := by
  simp [spelled, symbols, Instruction.symbols, Opcode.simpler]

@[simp] theorem spelled_check : (wrap .check x).spelled = .op .checkSig :: x.spelled := by
  simp [spelled, symbols, Instruction.symbols, Opcode.simpler]

@[simp] theorem spelled_dupIf :
    (wrap .dupIf x).spelled = .op .endIf :: (x.spelled ++ [.op .ifOp, .op .dup]) := by
  simp [spelled, symbols, Instruction.symbols, Opcode.simpler]

@[simp] theorem spelled_verify : (wrap .verify x).spelled = .op .verify :: x.spelled := by
  simp [spelled, symbols, Instruction.symbols, Opcode.simpler]

@[simp] theorem spelled_nonZero :
    (wrap .nonZero x).spelled
      = .op .endIf :: (x.spelled ++ [.op .ifOp, .op .zeroNotEqual, .op .size]) := by
  simp [spelled, symbols, Instruction.symbols, Opcode.simpler]

@[simp] theorem spelled_zeroNotEqual :
    (wrap .zeroNotEqual x).spelled = .op .zeroNotEqual :: x.spelled := by
  simp [spelled, symbols, Instruction.symbols, Opcode.simpler]

@[simp] theorem spelled_andV : (pair .andV x y).spelled = y.spelled ++ x.spelled := by
  simp [spelled, symbols]

@[simp] theorem spelled_andB :
    (pair .andB x y).spelled = .op .boolAnd :: (y.spelled ++ x.spelled) := by
  simp [spelled, symbols, Instruction.symbols, Opcode.simpler]

@[simp] theorem spelled_orB :
    (pair .orB x z).spelled = .op .boolOr :: (z.spelled ++ x.spelled) := by
  simp [spelled, symbols, Instruction.symbols, Opcode.simpler]

@[simp] theorem spelled_orD :
    (pair .orD x z).spelled
      = .op .endIf :: (z.spelled ++ .op .notIf :: .op .ifDup :: x.spelled) := by
  simp [spelled, symbols, Instruction.symbols, Opcode.simpler]

@[simp] theorem spelled_orC :
    (pair .orC x z).spelled = .op .endIf :: (z.spelled ++ .op .notIf :: x.spelled) := by
  simp [spelled, symbols, Instruction.symbols, Opcode.simpler]

@[simp] theorem spelled_orI :
    (pair .orI x z).spelled
      = .op .endIf :: (z.spelled ++ .op .elseOp :: (x.spelled ++ [.op .ifOp])) := by
  simp [spelled, symbols, Instruction.symbols, Opcode.simpler]

@[simp] theorem spelled_andor :
    (andor x y z).spelled
      = .op .endIf ::
        (y.spelled ++ .op .elseOp :: (z.spelled ++ .op .notIf :: x.spelled)) := by
  simp [spelled, symbols, Instruction.symbols, Opcode.simpler]

@[simp] theorem spelledParts_nil : spelledParts [] = [] := rfl

theorem spelledParts_cons (parts : List Fragment) :
    spelledParts (x :: parts) = spelledParts parts ++ .op .add :: x.spelled := by
  simp [spelledParts, sumWords, spelled, symbols, Instruction.symbols, Opcode.simpler]

theorem spelledParts_concat (parts : List Fragment) :
    spelledParts (parts ++ [y]) = .op .add :: (y.spelled ++ spelledParts parts) := by
  induction parts with
  | nil => simp [spelledParts_cons]
  | cons x parts ih => simp [spelledParts_cons, ih]

theorem spelled_thresh (k : Int) (parts : List Fragment) :
    (thresh k (x :: parts)).spelled
      = .op .equal :: .number (UInt32.ofNat k.toNat) :: (spelledParts parts ++ x.spelled) := by
  simp [spelled, spelledParts, symbols, sumWords, Instruction.symbols, Opcode.simpler]

end Compositions

end Fragment

namespace Decoder

/-! ## Fragments that can be made -/

/-- A fragment that the decoder can make: it has facts, is not nested beyond the limit, and its
numbers and keys are such as scripts have. -/
structure Makeable (limit : Int) (f : Fragment) : Prop where
  typed : ∃ facts : Facts Int64, f.facts? = .ok facts
  shallow : (f.depth : Int) ≤ limit
  readable : f.Readable
  few : ∀ l ∈ f.leaves, l.FewKeys

theorem Makeable.part {limit : Int} {f x : Fragment} (makeable : Makeable limit f)
    (child : x ∈ f.children) : Makeable limit x := by
  obtain ⟨⟨facts, typed⟩, shallow, readable, few⟩ := makeable
  have deeper := Fragment.depth_lt_of_child child
  exact ⟨Fragment.exists_facts?_of_child typed child, by omega,
    fun w member => readable w ((Fragment.words_sublist child).subset member),
    fun l member => few l (Fragment.leaves_subset child member)⟩

theorem Makeable.known {limit : Int} {f : Fragment} (makeable : Makeable limit f) :
    ∀ i ∈ f.instructions false, i.missingKey? = none := fun i member =>
  Fragment.missingKey?_of_readable (Fragment.readable_iff.1 makeable.readable i member)

theorem Makeable.exists_checked {limit : Int} {f : Fragment} (makeable : Makeable limit f) :
    ∃ m : Checked, m.fragment = f := by
  obtain ⟨facts, typed⟩ := makeable.typed
  exact ⟨⟨f, facts, typed⟩, rfl⟩

/-! ## Views and rules -/

/-- A state of the decoder without the offsets of its tokens. -/
structure View where
  symbols : List Symbol
  expected : List Expectation
  found : List Checked

/-- The state without the offsets. -/
def State.view (st : State) : View := ⟨st.tokens.map Token.symbol, st.expected, st.found⟩

/-- No `and_v` can go on with the symbols left. -/
def EndsAndV (symbols : List Symbol) : Prop :=
  ∀ s, symbols.head? = some s →
    s = .op .ifOp ∨ s = .op .notIf ∨ s = .op .elseOp ∨ s = .op .toAltStack ∨ s = .op .swap

section Rules

variable (limit : Int)

/-- How the last S of a fragment are taken. -/
inductive Begins : View → View → Prop
  | leaf {l : Leaf} {m : Checked} {S : List Symbol} {E : List Expectation} {F : List Checked}
    (readable : l.Readable) (few : l.FewKeys) (made : Checked.leaf limit l = .ok m) :
    Begins ⟨(Fragment.leaf l).spelled ++ S, E, F⟩ ⟨S, E, m :: F⟩
  | check {S : List Symbol} {E : List Expectation} {F : List Checked} :
    Begins ⟨.op .checkSig :: S, E, F⟩ ⟨S, .fragment :: .wrap .check :: E, F⟩
  | zeroNotEqual {S : List Symbol} {E : List Expectation} {F : List Checked} :
    Begins ⟨.op .zeroNotEqual :: S, E, F⟩ ⟨S, .fragment :: .wrap .zeroNotEqual :: E, F⟩
  | verify {S : List Symbol} {E : List Expectation} {F : List Checked}
    (other : S.head? ≠ some (.op .equal)) :
    Begins ⟨.op .verify :: S, E, F⟩ ⟨S, .fragment :: .wrap .verify :: E, F⟩
  /-- The EQUALVERIFY of a hash lock within `v:`. -/
  | verifyHash {f : HashFunction} {image : Digest f.width} {m : Checked} {S : List Symbol}
    {E : List Expectation} {F : List Checked}
    (made : Checked.leaf limit (.hashLock f image) = .ok m) :
    Begins ⟨.op .verify :: ((Fragment.leaf (.hashLock f image)).spelled ++ S), E, F⟩
      ⟨S, .wrap .verify :: E, m :: F⟩
  | thresh {k : UInt32} {S : List Symbol} {E : List Expectation} {F : List Checked} :
    Begins ⟨.op .equal :: .number k :: S, E, F⟩ ⟨S, .moreSubs k.toNat 0 :: E, F⟩
  /-- The EQUALVERIFY of a threshold within `v:`. -/
  | verifyThresh {k : UInt32} {S : List Symbol} {E : List Expectation} {F : List Checked} :
    Begins ⟨.op .verify :: .op .equal :: .number k :: S, E, F⟩
      ⟨S, .moreSubs k.toNat 0 :: .wrap .verify :: E, F⟩
  | endIf {S : List Symbol} {E : List Expectation} {F : List Checked} :
    Begins ⟨.op .endIf :: S, E, F⟩ ⟨S, .fragment :: .maybeAndV :: .endIf :: E, F⟩
  | andB {S : List Symbol} {E : List Expectation} {F : List Checked} :
    Begins ⟨.op .boolAnd :: S, E, F⟩ ⟨S, .below :: .fragment :: .pair .andB :: E, F⟩
  | orB {S : List Symbol} {E : List Expectation} {F : List Checked} :
    Begins ⟨.op .boolOr :: S, E, F⟩ ⟨S, .below :: .fragment :: .pair .orB :: E, F⟩

/-- How one expectation is met; the views hold those after it. -/
inductive Meets : Expectation → View → View → Prop
  | fragment {v v' : View} (begins : Begins limit v v') :
    Meets .fragment v v'
  | belowAlt {S : List Symbol} {E : List Expectation} {F : List Checked} :
    Meets .below ⟨.op .fromAltStack :: S, E, F⟩ ⟨S, .fragment :: .maybeAndV :: .alt :: E, F⟩
  | belowSwap {S : List Symbol} {E : List Expectation} {F : List Checked}
    (other : S.head? ≠ some (.op .fromAltStack)) :
    Meets .below ⟨S, E, F⟩ ⟨S, .fragment :: .maybeAndV :: .maybeSwap :: E, F⟩
  | swap {x m : Checked} {S : List Symbol} {E : List Expectation} {F : List Checked}
    (made : Checked.wrap limit .swap x = .ok m) :
    Meets .maybeSwap ⟨.op .swap :: S, E, x :: F⟩ ⟨S, E, m :: F⟩
  | noSwap {v : View} (other : v.symbols.head? ≠ some (.op .swap)) :
    Meets .maybeSwap v v
  | andVEnds {v : View} (ends : EndsAndV v.symbols) :
    Meets .maybeAndV v v
  | andVGoesOn {S : List Symbol} {E : List Expectation} {F : List Checked} {v : View}
    (goesOn : ¬ EndsAndV S) (begins : Begins limit ⟨S, .andV :: E, F⟩ v) :
    Meets .maybeAndV ⟨S, E, F⟩ v
  | alt {x m : Checked} {S : List Symbol} {E : List Expectation} {F : List Checked}
    (made : Checked.wrap limit .alt x = .ok m) :
    Meets .alt ⟨.op .toAltStack :: S, E, x :: F⟩ ⟨S, E, m :: F⟩
  | wrap {w : Wrapper} {x m : Checked} {S : List Symbol} {E : List Expectation} {F : List Checked}
    (made : Checked.wrap limit w x = .ok m) :
    Meets (.wrap w) ⟨S, E, x :: F⟩ ⟨S, E, m :: F⟩
  | pair {op : Combinator} {x y m : Checked} {S : List Symbol} {E : List Expectation}
    {F : List Checked} (made : Checked.pair limit op x y = .ok m) :
    Meets (.pair op) ⟨S, E, x :: y :: F⟩ ⟨S, E, m :: F⟩
  | andV {x y m : Checked} {S : List Symbol} {E : List Expectation} {F : List Checked}
    (made : Checked.pair limit .andV x y = .ok m) :
    Meets .andV ⟨S, E, x :: y :: F⟩ ⟨S, .maybeAndV :: E, m :: F⟩
  | andor {x y z m : Checked} {S : List Symbol} {E : List Expectation} {F : List Checked}
    (made : Checked.andor limit x y z = .ok m) :
    Meets .andor ⟨S, E, x :: z :: y :: F⟩ ⟨S, E, m :: F⟩
  | anotherSub {k n : Nat} {S : List Symbol} {E : List Expectation} {F : List Checked} :
    Meets (.moreSubs k n) ⟨.op .add :: S, E, F⟩ ⟨S, .below :: .moreSubs k (n + 1) :: E, F⟩
  | firstSub {k n : Nat} {S : List Symbol} {E : List Expectation} {F : List Checked}
    (other : S.head? ≠ some (.op .add)) :
    Meets (.moreSubs k n) ⟨S, E, F⟩ ⟨S, .fragment :: .thresh k (n + 1) :: E, F⟩
  | thresh {k : Nat} {subs : List Checked} {m : Checked} {S : List Symbol} {E : List Expectation}
    {F : List Checked} (made : Checked.thresh limit k subs = .ok m) :
    Meets (.thresh k subs.length) ⟨S, E, subs ++ F⟩ ⟨S, E, m :: F⟩
  | elseBody {S : List Symbol} {E : List Expectation} {F : List Checked} :
    Meets .endIf ⟨.op .elseOp :: S, E, F⟩ ⟨S, .fragment :: .maybeAndV :: .beforeElse :: E, F⟩
  | dupIf {S : List Symbol} {E : List Expectation} {F : List Checked} :
    Meets .endIf ⟨.op .ifOp :: .op .dup :: S, E, F⟩ ⟨S, .wrap .dupIf :: E, F⟩
  | nonZero {S : List Symbol} {E : List Expectation} {F : List Checked} :
    Meets .endIf ⟨.op .ifOp :: .op .zeroNotEqual :: .op .size :: S, E, F⟩
      ⟨S, .wrap .nonZero :: E, F⟩
  | notIf {S : List Symbol} {E : List Expectation} {F : List Checked} :
    Meets .endIf ⟨.op .notIf :: S, E, F⟩ ⟨S, .beforeNotIf :: E, F⟩
  | orD {S : List Symbol} {E : List Expectation} {F : List Checked} :
    Meets .beforeNotIf ⟨.op .ifDup :: S, E, F⟩ ⟨S, .fragment :: .pair .orD :: E, F⟩
  | orC {S : List Symbol} {E : List Expectation} {F : List Checked}
    (other : S.head? ≠ some (.op .ifDup)) :
    Meets .beforeNotIf ⟨S, E, F⟩ ⟨S, .fragment :: .pair .orC :: E, F⟩
  | orI {x y m : Checked} {S : List Symbol} {E : List Expectation} {F : List Checked}
    (made : Checked.pair limit .orI x y = .ok m) :
    Meets .beforeElse ⟨.op .ifOp :: S, E, x :: y :: F⟩ ⟨S, E, m :: F⟩
  | elseNotIf {S : List Symbol} {E : List Expectation} {F : List Checked} :
    Meets .beforeElse ⟨.op .notIf :: S, E, F⟩ ⟨S, .fragment :: .andor :: E, F⟩

end Rules

/-- A view from which the rules lead to the one fragment that is left at the end. -/
inductive Yields (limit : Int) : View → Checked → Prop
  | done (m : Checked) : Yields limit ⟨[], [], [m]⟩ m
  | step {e : Expectation} {S : List Symbol} {E : List Expectation} {F : List Checked} {v : View}
    {m : Checked} (meets : Meets limit e ⟨S, E, F⟩ v) (yields : Yields limit v m) :
    Yields limit ⟨S, e :: E, F⟩ m

end Decoder

end LockScript
