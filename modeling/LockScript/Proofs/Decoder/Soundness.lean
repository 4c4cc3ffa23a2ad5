import LockScript.Proofs.Decoder.Runs

/-!
What the decoder finds is what the script says.

Each expectation stands for a fragment of which the end has been read already; `Expectation.read`
says what that was, given the parts that are on the stack. A view is explained by its stacks if
everything read and left is spelled out by the fragments that are found in the end (`Explains`). The
rules keep this from the last view back to the first, so a decoded fragment spells its script.
-/

namespace LockScript.Decoder

/-! ## What has been read -/

/-- The number of fragments on the stack that an expectation takes. -/
def Expectation.uses : Expectation → Nat
  | .fragment => 0
  | .below => 0
  | .pair _ => 2
  | .andV => 2
  | .andor => 3
  | .moreSubs _ n => n
  | .thresh _ n => n
  | .beforeElse => 2
  | _ => 1

/-- The symbols that have been read of the fragment that an expectation stands for. -/
def Expectation.read : Expectation → (used : List Fragment) → List Symbol
  | .maybeSwap, [x] => x.spelled
  | .maybeAndV, [x] => x.spelled
  | .alt, [x] => .op .fromAltStack :: x.spelled
  | .wrap w, [x] => (Fragment.wrap w x).spelled
  | .pair op, [x, y] => (Fragment.pair op x y).spelled
  | .andV, [x, y] => (Fragment.pair .andV x y).spelled
  | .andor, [x, z, y] => (Fragment.andor x y z).spelled
  | .moreSubs k _, parts => .op .equal :: .number (UInt32.ofNat k) :: Fragment.spelledParts parts
  | .thresh k _, parts => (Fragment.thresh k parts).spelled
  | .endIf, [y] => .op .endIf :: y.spelled
  | .beforeNotIf, [z] => .op .endIf :: (z.spelled ++ [.op .notIf])
  | .beforeElse, [z, y] => .op .endIf :: (y.spelled ++ .op .elseOp :: z.spelled)
  | _, _ => []

/-- The symbols left are explained by the stacks: one expectation after the other stands for a
fragment that spells what was read of it and the next of the symbols, until the result is left
alone. -/
def Explains (result : Checked) : List Expectation → List Checked → List Symbol → Prop
  | [], found, symbols => symbols = [] ∧ found = [result]
  | e :: expected, found, symbols => ∀ used rest, found = used ++ rest → used.length = e.uses →
    ∃ x symbols', e.read (used.map Checked.fragment) ++ symbols = x.fragment.spelled ++ symbols' ∧
      Explains result expected (x :: rest) symbols'

variable {limit : Int} {result : Checked} {S : List Symbol} {E : List Expectation}
  {F : List Checked} {v : View}

/-- A fragment that begins here is explained if what comes after is. -/
theorem Begins.explains (begins : Begins limit ⟨S, E, F⟩ v)
    (after : Explains result v.expected v.found v.symbols) :
    ∃ x S', S = x.fragment.spelled ++ S' ∧ Explains result E (x :: F) S' := by
  cases begins with
  | leaf readable few made =>
    have same := (Checked.leaf_eq_ok_iff.1 made).2
    exact ⟨_, _, by rw [same], after⟩
  | check =>
    obtain ⟨x, S₁, rfl, after₁⟩ := after [] F rfl rfl
    obtain ⟨y, S₂, same, after₂⟩ := after₁ [x] F rfl rfl
    exact ⟨y, S₂, by simpa [Expectation.read] using same, after₂⟩
  | zeroNotEqual =>
    obtain ⟨x, S₁, rfl, after₁⟩ := after [] F rfl rfl
    obtain ⟨y, S₂, same, after₂⟩ := after₁ [x] F rfl rfl
    exact ⟨y, S₂, by simpa [Expectation.read] using same, after₂⟩
  | verify other =>
    obtain ⟨x, S₁, rfl, after₁⟩ := after [] F rfl rfl
    obtain ⟨y, S₂, same, after₂⟩ := after₁ [x] F rfl rfl
    exact ⟨y, S₂, by simpa [Expectation.read] using same, after₂⟩
  | @verifyHash f image m _ _ _ made =>
    obtain ⟨y, S₁, same, after₁⟩ := after [m] F rfl rfl
    refine ⟨y, S₁, ?_, after₁⟩
    simpa [Expectation.read, (Checked.leaf_eq_ok_iff.1 made).2] using same
  | thresh =>
    obtain ⟨y, S₁, same, after₁⟩ := after [] F rfl rfl
    exact ⟨y, S₁, by simpa [Expectation.read] using same, after₁⟩
  | verifyThresh =>
    obtain ⟨x, S₁, same₁, after₁⟩ := after [] F rfl rfl
    obtain ⟨y, S₂, same₂, after₂⟩ := after₁ [x] F rfl rfl
    refine ⟨y, S₂, ?_, after₂⟩
    simp only [Expectation.read, List.map_nil, List.map_cons, Fragment.spelledParts_nil,
      Fragment.spelled_verify, UInt32.ofNat_toNat, List.cons_append, List.nil_append] at same₁ same₂
    rw [← same₂, ← same₁]
  | endIf =>
    obtain ⟨x, S₁, rfl, after₁⟩ := after [] F rfl rfl
    obtain ⟨y, S₂, same₁, after₂⟩ := after₁ [x] F rfl rfl
    obtain ⟨z, S₃, same₂, after₃⟩ := after₂ [y] F rfl rfl
    refine ⟨z, S₃, ?_, after₃⟩
    simp only [Expectation.read, List.map_nil, List.map_cons, List.cons_append] at same₁ same₂
    rw [← same₂, ← same₁]
  | andB =>
    obtain ⟨y, S₁, rfl, after₁⟩ := after [] F rfl rfl
    obtain ⟨x, S₂, rfl, after₂⟩ := after₁ [] (y :: F) rfl rfl
    obtain ⟨z, S₃, same, after₃⟩ := after₂ [x, y] F rfl rfl
    exact ⟨z, S₃, by simpa [Expectation.read] using same, after₃⟩
  | orB =>
    obtain ⟨y, S₁, rfl, after₁⟩ := after [] F rfl rfl
    obtain ⟨x, S₂, rfl, after₂⟩ := after₁ [] (y :: F) rfl rfl
    obtain ⟨z, S₃, same, after₃⟩ := after₂ [x, y] F rfl rfl
    exact ⟨z, S₃, by simpa [Expectation.read] using same, after₃⟩

/-- A stack is split in one way into a given number of fragments and the rest. -/
theorem eq_of_split (known : List Checked) {used rest : List Checked}
    (split : known ++ F = used ++ rest) (size : used.length = known.length) :
    used = known ∧ rest = F := by
  obtain ⟨rfl, rfl⟩ := List.append_inj split size.symm
  exact ⟨rfl, rfl⟩

/-- An expectation is explained if what its rule leads to is. -/
theorem Meets.explains {e : Expectation} (meets : Meets limit e ⟨S, E, F⟩ v)
    (after : Explains result v.expected v.found v.symbols) : Explains result (e :: E) F S := by
  intro used rest split size
  cases meets with
  | fragment begins =>
    obtain rfl := List.length_eq_zero_iff.1 size
    obtain rfl : F = rest := split
    exact begins.explains after
  | belowAlt =>
    obtain rfl := List.length_eq_zero_iff.1 size
    obtain rfl : F = rest := split
    obtain ⟨x, S₁, rfl, after₁⟩ := after [] F rfl rfl
    obtain ⟨y, S₂, same₁, after₂⟩ := after₁ [x] F rfl rfl
    obtain ⟨z, S₃, same₂, after₃⟩ := after₂ [y] F rfl rfl
    refine ⟨z, S₃, ?_, after₃⟩
    simp only [Expectation.read, List.map_nil, List.map_cons, List.cons_append, List.nil_append]
      at same₁ same₂ ⊢
    rw [← same₂, ← same₁]
  | belowSwap other =>
    obtain rfl := List.length_eq_zero_iff.1 size
    obtain rfl : F = rest := split
    obtain ⟨x, S₁, rfl, after₁⟩ := after [] F rfl rfl
    obtain ⟨y, S₂, same₁, after₂⟩ := after₁ [x] F rfl rfl
    obtain ⟨z, S₃, same₂, after₃⟩ := after₂ [y] F rfl rfl
    exact ⟨z, S₃, same₁.trans same₂, after₃⟩
  | @swap x m _ _ F made =>
    obtain ⟨rfl, rfl⟩ := eq_of_split [x] split size
    refine ⟨_, _, ?_, after⟩
    simp [Expectation.read, (Checked.wrap_eq_ok_iff.1 made).2]
  | noSwap other =>
    obtain ⟨x, rfl⟩ := List.length_eq_one_iff.1 size
    subst split
    exact ⟨x, S, rfl, after⟩
  | andVEnds ends =>
    obtain ⟨x, rfl⟩ := List.length_eq_one_iff.1 size
    subst split
    exact ⟨x, S, rfl, after⟩
  | andVGoesOn goesOn begins =>
    obtain ⟨y, rfl⟩ := List.length_eq_one_iff.1 size
    subst split
    obtain ⟨x, S₁, rfl, after₁⟩ := begins.explains after
    obtain ⟨z, S₂, same, after₂⟩ := after₁ [x, y] rest rfl rfl
    exact ⟨z, S₂, by simpa [Expectation.read] using same, after₂⟩
  | @alt x m _ _ F made =>
    obtain ⟨rfl, rfl⟩ := eq_of_split [x] split size
    refine ⟨_, _, ?_, after⟩
    simp [Expectation.read, (Checked.wrap_eq_ok_iff.1 made).2]
  | @wrap w x m _ _ F made =>
    obtain ⟨rfl, rfl⟩ := eq_of_split [x] split size
    refine ⟨_, _, ?_, after⟩
    simp [Expectation.read, (Checked.wrap_eq_ok_iff.1 made).2]
  | @pair op x y m _ _ F made =>
    obtain ⟨rfl, rfl⟩ := eq_of_split [x, y] split size
    refine ⟨_, _, ?_, after⟩
    simp [Expectation.read, (Checked.pair_eq_ok_iff.1 made).2]
  | @andV x y m _ _ F made =>
    obtain ⟨rfl, rfl⟩ := eq_of_split [x, y] split size
    obtain ⟨z, S₁, same, after₁⟩ := after [m] rest rfl rfl
    refine ⟨z, S₁, ?_, after₁⟩
    simpa [Expectation.read, (Checked.pair_eq_ok_iff.1 made).2] using same
  | @andor x y z m _ _ F made =>
    obtain ⟨rfl, rfl⟩ := eq_of_split [x, z, y] split size
    refine ⟨_, _, ?_, after⟩
    simp [Expectation.read, (Checked.andor_eq_ok_iff.1 made).2]
  | @anotherSub k n S _ F =>
    subst split
    obtain ⟨x, S₁, rfl, after₁⟩ := after [] (used ++ rest) rfl rfl
    obtain ⟨y, S₂, same, after₂⟩ := after₁ (x :: used) rest rfl (congrArg (· + 1) size)
    refine ⟨y, S₂, ?_, after₂⟩
    simpa [Expectation.read, Fragment.spelledParts_cons] using same
  | @firstSub k n S _ F other =>
    subst split
    obtain ⟨x, S₁, rfl, after₁⟩ := after [] (used ++ rest) rfl rfl
    obtain ⟨y, S₂, same, after₂⟩ := after₁ (x :: used) rest rfl (congrArg (· + 1) size)
    refine ⟨y, S₂, ?_, after₂⟩
    simpa [Expectation.read, Fragment.spelled_thresh] using same
  | @thresh k subs m _ _ F made =>
    obtain ⟨rfl, rfl⟩ := eq_of_split subs split size
    refine ⟨_, _, ?_, after⟩
    simp [Expectation.read, (Checked.thresh_eq_ok_iff.1 made).2]
  | elseBody =>
    obtain ⟨y, rfl⟩ := List.length_eq_one_iff.1 size
    subst split
    obtain ⟨x, S₁, rfl, after₁⟩ := after [] (y :: rest) rfl rfl
    obtain ⟨z, S₂, same₁, after₂⟩ := after₁ [x] (y :: rest) rfl rfl
    obtain ⟨t, S₃, same₂, after₃⟩ := after₂ [z, y] rest rfl rfl
    refine ⟨t, S₃, ?_, after₃⟩
    simp only [Expectation.read, List.map_nil, List.map_cons, List.cons_append, List.append_assoc]
      at same₁ same₂ ⊢
    rw [← same₂, ← same₁]
  | dupIf =>
    obtain ⟨x, rfl⟩ := List.length_eq_one_iff.1 size
    subst split
    obtain ⟨y, S₁, same, after₁⟩ := after [x] rest rfl rfl
    exact ⟨y, S₁, by simpa [Expectation.read] using same, after₁⟩
  | nonZero =>
    obtain ⟨x, rfl⟩ := List.length_eq_one_iff.1 size
    subst split
    obtain ⟨y, S₁, same, after₁⟩ := after [x] rest rfl rfl
    exact ⟨y, S₁, by simpa [Expectation.read] using same, after₁⟩
  | notIf =>
    obtain ⟨x, rfl⟩ := List.length_eq_one_iff.1 size
    subst split
    obtain ⟨y, S₁, same, after₁⟩ := after [x] rest rfl rfl
    exact ⟨y, S₁, by simpa [Expectation.read] using same, after₁⟩
  | orD =>
    obtain ⟨z, rfl⟩ := List.length_eq_one_iff.1 size
    subst split
    obtain ⟨x, S₁, rfl, after₁⟩ := after [] (z :: rest) rfl rfl
    obtain ⟨y, S₂, same, after₂⟩ := after₁ [x, z] rest rfl rfl
    exact ⟨y, S₂, by simpa [Expectation.read] using same, after₂⟩
  | orC other =>
    obtain ⟨z, rfl⟩ := List.length_eq_one_iff.1 size
    subst split
    obtain ⟨x, S₁, rfl, after₁⟩ := after [] (z :: rest) rfl rfl
    obtain ⟨y, S₂, same, after₂⟩ := after₁ [x, z] rest rfl rfl
    exact ⟨y, S₂, by simpa [Expectation.read] using same, after₂⟩
  | @orI x y m _ _ F made =>
    obtain ⟨rfl, rfl⟩ := eq_of_split [x, y] split size
    refine ⟨_, _, ?_, after⟩
    simp [Expectation.read, (Checked.pair_eq_ok_iff.1 made).2]
  | elseNotIf =>
    obtain ⟨z, y, rfl⟩ := List.length_eq_two.1 size
    subst split
    obtain ⟨x, S₁, rfl, after₁⟩ := after [] (z :: y :: rest) rfl rfl
    obtain ⟨t, S₂, same, after₂⟩ := after₁ [x, z, y] rest rfl rfl
    exact ⟨t, S₂, by simpa [Expectation.read] using same, after₂⟩

/-- What the rules yield explains where they started. -/
theorem Yields.explains (yields : Yields limit v result) :
    Explains result v.expected v.found v.symbols := by
  induction yields with
  | done m => exact ⟨rfl, rfl⟩
  | step meets _ ih => exact meets.explains ih

/-! ## Fragments that can be made -/

section Making

variable {m x y z : Checked}

theorem Makeable.leaf {l : Leaf} (made : Checked.leaf limit l = .ok m) (readable : l.Readable)
    (few : l.FewKeys) : Makeable limit m.fragment := by
  obtain ⟨shallow, same⟩ := Checked.leaf_eq_ok_iff.1 made
  refine ⟨⟨m.facts, m.typed⟩, ?_, ?_, ?_⟩
  · rw [same]
    exact shallow
  · rw [same]
    exact Fragment.readable_leaf_iff.2 readable
  · rw [same]
    simpa [Fragment.leaves] using few

theorem Makeable.wrap {w : Wrapper} (made : Checked.wrap limit w x = .ok m)
    (part : Makeable limit x.fragment) : Makeable limit m.fragment := by
  obtain ⟨shallow, same⟩ := Checked.wrap_eq_ok_iff.1 made
  refine ⟨⟨m.facts, m.typed⟩, ?_, ?_, ?_⟩
  · rw [same]
    exact shallow
  · rw [same]
    exact Fragment.readable_wrap.2 part.readable
  · rw [same]
    simpa [Fragment.leaves] using part.few

theorem Makeable.pair {op : Combinator} (made : Checked.pair limit op x y = .ok m)
    (first : Makeable limit x.fragment) (second : Makeable limit y.fragment) :
    Makeable limit m.fragment := by
  obtain ⟨shallow, same⟩ := Checked.pair_eq_ok_iff.1 made
  refine ⟨⟨m.facts, m.typed⟩, ?_, ?_, ?_⟩
  · rw [same]
    exact shallow
  · rw [same]
    exact Fragment.readable_pair.2 ⟨first.readable, second.readable⟩
  · rw [same]
    simpa [Fragment.leaves, or_imp, forall_and] using ⟨first.few, second.few⟩

theorem Makeable.andor (made : Checked.andor limit x y z = .ok m)
    (first : Makeable limit x.fragment) (second : Makeable limit y.fragment)
    (third : Makeable limit z.fragment) : Makeable limit m.fragment := by
  obtain ⟨shallow, same⟩ := Checked.andor_eq_ok_iff.1 made
  refine ⟨⟨m.facts, m.typed⟩, ?_, ?_, ?_⟩
  · rw [same]
    exact shallow
  · rw [same]
    exact Fragment.readable_andor.2 ⟨first.readable, second.readable, third.readable⟩
  · rw [same]
    simpa [Fragment.leaves, or_imp, forall_and] using ⟨first.few, second.few, third.few⟩

theorem Makeable.thresh {k : Nat} {subs : List Checked}
    (made : Checked.thresh limit k subs = .ok m) (small : k < 2 ^ 32)
    (parts : ∀ x ∈ subs, Makeable limit x.fragment) : Makeable limit m.fragment := by
  obtain ⟨shallow, same⟩ := Checked.thresh_eq_ok_iff.1 made
  have each : ∀ f ∈ subs.map Checked.fragment, Makeable limit f := by
    simpa using parts
  refine ⟨⟨m.facts, m.typed⟩, ?_, ?_, ?_⟩
  · rw [same]
    exact shallow
  · rw [same]
    exact Fragment.readable_thresh.2 ⟨fun f member => (each f member).readable, small⟩
  · rw [same, Fragment.leaves, Fragment.leavesOf_eq_flatMap]
    intro l member
    obtain ⟨f, inside, leaf⟩ := List.mem_flatMap.1 member
    exact (each f inside).few l leaf

end Making

/-- Expectations hold numbers below 2³² only. -/
def Expectation.Small : Expectation → Prop
  | .moreSubs k _ => k < 2 ^ 32
  | .thresh k _ => k < 2 ^ 32
  | _ => True

/-- The numbers that a view expects are such as scripts have, and the fragments in it were made. -/
structure View.Makeable (limit : Int) (v : View) : Prop where
  expected : ∀ e ∈ v.expected, e.Small
  found : ∀ x ∈ v.found, Decoder.Makeable limit x.fragment

theorem Begins.makeable (begins : Begins limit ⟨S, E, F⟩ v)
    (makeable : View.Makeable limit ⟨S, E, F⟩) : v.Makeable limit := by
  obtain ⟨small, found⟩ := makeable
  have bound (k : UInt32) : k.toNat < 2 ^ 32 := k.toNat_lt
  cases begins with
  | leaf readable few made =>
    exact ⟨small, List.forall_mem_cons.2 ⟨.leaf made readable few, found⟩⟩
  | verifyHash made =>
    exact ⟨List.forall_mem_cons.2 ⟨trivial, small⟩,
      List.forall_mem_cons.2 ⟨.leaf made trivial trivial, found⟩⟩
  | @thresh k => exact ⟨List.forall_mem_cons.2 ⟨bound k, small⟩, found⟩
  | @verifyThresh k =>
    exact ⟨List.forall_mem_cons.2 ⟨bound k, List.forall_mem_cons.2 ⟨trivial, small⟩⟩, found⟩
  | check => exact ⟨by simpa [Expectation.Small] using small, found⟩
  | zeroNotEqual => exact ⟨by simpa [Expectation.Small] using small, found⟩
  | verify other => exact ⟨by simpa [Expectation.Small] using small, found⟩
  | endIf => exact ⟨by simpa [Expectation.Small] using small, found⟩
  | andB => exact ⟨by simpa [Expectation.Small] using small, found⟩
  | orB => exact ⟨by simpa [Expectation.Small] using small, found⟩

theorem Meets.makeable {e : Expectation} (meets : Meets limit e ⟨S, E, F⟩ v)
    (makeable : View.Makeable limit ⟨S, e :: E, F⟩) : v.Makeable limit := by
  obtain ⟨all, found⟩ := makeable
  obtain ⟨first, small⟩ := List.forall_mem_cons.1 all
  cases meets with
  | fragment begins => exact begins.makeable ⟨small, found⟩
  | andVGoesOn goesOn begins =>
    exact begins.makeable ⟨List.forall_mem_cons.2 ⟨trivial, small⟩, found⟩
  | noSwap other => exact ⟨small, found⟩
  | andVEnds ends => exact ⟨small, found⟩
  | swap made =>
    obtain ⟨x, others⟩ := List.forall_mem_cons.1 found
    exact ⟨small, List.forall_mem_cons.2 ⟨.wrap made x, others⟩⟩
  | alt made =>
    obtain ⟨x, others⟩ := List.forall_mem_cons.1 found
    exact ⟨small, List.forall_mem_cons.2 ⟨.wrap made x, others⟩⟩
  | wrap made =>
    obtain ⟨x, others⟩ := List.forall_mem_cons.1 found
    exact ⟨small, List.forall_mem_cons.2 ⟨.wrap made x, others⟩⟩
  | pair made =>
    obtain ⟨x, y, others⟩ := List.forall_mem_cons.1 found |>.imp_right List.forall_mem_cons.1
    exact ⟨small, List.forall_mem_cons.2 ⟨.pair made x y, others⟩⟩
  | andV made =>
    obtain ⟨x, y, others⟩ := List.forall_mem_cons.1 found |>.imp_right List.forall_mem_cons.1
    exact ⟨List.forall_mem_cons.2 ⟨trivial, small⟩,
      List.forall_mem_cons.2 ⟨.pair made x y, others⟩⟩
  | orI made =>
    obtain ⟨x, y, others⟩ := List.forall_mem_cons.1 found |>.imp_right List.forall_mem_cons.1
    exact ⟨small, List.forall_mem_cons.2 ⟨.pair made x y, others⟩⟩
  | @andor x y z m _ _ F made =>
    have result := Makeable.andor made (found x (by simp)) (found y (by simp)) (found z (by simp))
    exact ⟨small, List.forall_mem_cons.2 ⟨result, fun t member => found t (by simp [member])⟩⟩
  | @thresh k subs m _ _ F made =>
    have result := Makeable.thresh made first fun x member => found x (by simp [member])
    exact ⟨small, List.forall_mem_cons.2 ⟨result, fun t member => found t (by simp [member])⟩⟩
  | anotherSub => exact ⟨by simpa [Expectation.Small] using ⟨first, small⟩, found⟩
  | firstSub other => exact ⟨by simpa [Expectation.Small] using ⟨first, small⟩, found⟩
  | _ => exact ⟨by simpa [Expectation.Small] using small, found⟩

/-- What the rules yield was made if everything found before was. -/
theorem Yields.makeable (yields : Yields limit v result) (makeable : v.Makeable limit) :
    Makeable limit result.fragment := by
  induction yields with
  | done m => exact makeable.found m List.mem_cons_self
  | step meets _ ih => exact ih (meets.makeable makeable)

/-! ## Decoded scripts -/

/-- A decoded fragment was made, and its instructions are those of the script. -/
theorem bytes_of_decode {s : Settings} (readsPoints : s.decodeKey = Key.ofBytes) {b : Bytes}
    {m : Checked} (decoded : decode s b = .ok m) :
    Makeable s.limit m.fragment ∧
      b = (m.fragment.instructions false).flatMap Instruction.bytes := by
  obtain ⟨tokens, lexed, yields⟩ := (decode_eq_ok_iff readsPoints).1 decoded
  have makeable := yields.makeable ⟨by simp [Expectation.Small], by simp⟩
  -- At the start a fragment is expected, and perhaps others in sequence before it.
  obtain ⟨x, S₁, same₁, after₁⟩ := yields.explains [] [] rfl rfl
  obtain ⟨y, S₂, same₂, after₂⟩ := after₁ [x] [] rfl rfl
  obtain ⟨rfl, last⟩ := after₂
  obtain rfl : y = m := by simpa using last
  have spelled : tokens.map Token.symbol = y.fragment.spelled := by
    simp only [Expectation.read, List.map_nil, List.map_cons, List.nil_append, List.append_nil]
      at same₁ same₂
    rw [same₁, same₂]
  exact ⟨makeable, Fragment.bytes_of_lex makeable.readable lexed spelled⟩

theorem script_of_decode {s : Settings} (readsPoints : s.decodeKey = Key.ofBytes) {b : Bytes}
    {m : Checked} (short : b.length ≤ Script.maxSize) (decoded : decode s b = .ok m) :
    m.fragment.script = .ok b := by
  obtain ⟨makeable, bytes⟩ := bytes_of_decode readsPoints decoded
  exact Fragment.script_eq_ok_iff.2 ⟨makeable.known, bytes, short⟩

/-- Decoding can be undone. A decoded fragment has the script that it was decoded from, so it is
decoded from no other script. -/
theorem script_undoes_decode {s : Settings} (readsPoints : s.decodeKey = Key.ofBytes) {b : Bytes}
    {m : Checked} (short : b.length ≤ Script.maxSize) (decoded : decode s b = .ok m) :
    m.fragment.script = .ok b ∧
      ∀ (s' : Settings) (b' : Bytes), s'.decodeKey = Key.ofBytes → b'.length ≤ Script.maxSize →
        decode s' b' = .ok m → b' = b := by
  have written := script_of_decode readsPoints short decoded
  refine ⟨written, fun s' b' readsPoints' short' decoded' => ?_⟩
  have written' := script_of_decode readsPoints' short' decoded'
  rw [written] at written'
  exact (Except.ok.inj written').symm

/-- The script of `and_v(v:thresh(1,hash160(H),s:c:pk(G)),older(3))`. -/
def hashOrKeyScript : Bytes :=
  [0x82, 0x01, 0x20, 0x88, 0xA9, 0x14] ++ List.replicate 20 7 ++ [0x87, 0x7C, 0x21]
    ++ Point.generator.bytes ++ [0xAC, 0x93, 0x51, 0x88, 0x53, 0xB2]

theorem script_undoes_decode_hashOrKey :
    ∃ m, decode {} hashOrKeyScript = .ok m ∧ m.fragment.script = .ok hashOrKeyScript ∧
      ∀ (s' : Settings) (b' : Bytes), s'.decodeKey = Key.ofBytes → b'.length ≤ Script.maxSize →
        decode s' b' = .ok m → b' = hashOrKeyScript := by
  have accepted : (decode {} hashOrKeyScript).isOk = true := by decide +kernel
  cases decoded : decode {} hashOrKeyScript with
  | error e =>
    rw [decoded] at accepted
    cases accepted
  | ok m => exact ⟨m, rfl, script_undoes_decode rfl (by decide) decoded⟩

end LockScript.Decoder
