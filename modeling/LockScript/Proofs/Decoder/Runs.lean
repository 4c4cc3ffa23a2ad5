import LockScript.Proofs.Decoder.Steps

/-!
Runs of the decoder.

Every step makes a view smaller by a measure in which a symbol outweighs all that it makes the
decoder expect. So the number of steps that the decoder allows itself is never used up, and it finds
a fragment exactly where the rules yield one (`decode_eq_ok_iff`).
-/

namespace LockScript.Decoder

/-! ## Every step makes a view smaller -/

/-- How much an expectation counts. What meets it with no symbol taken counts less. -/
def Expectation.weight : Expectation → Nat
  | .below => 4
  | .moreSubs _ _ => 3
  | .beforeNotIf => 3
  | .andV => 2
  | _ => 1

/-- The measure of a view. -/
def View.size (v : View) : Nat := 8 * v.symbols.length + (v.expected.map Expectation.weight).sum

variable {limit : Int}

theorem spelled_leaf_ne_nil {l : Leaf} (readable : l.Readable) :
    (Fragment.leaf l).spelled ≠ [] := by
  obtain ⟨w, words, same⟩ := List.exists_cons_of_ne_nil (Fragment.leaf l).words_ne_nil
  have first : w.Readable := Fragment.readable_leaf_iff.2 readable w (by simp [same])
  simp [Fragment.spelled, Fragment.symbols, same, Instruction.symbols_ne_nil first]

theorem Begins.size_le {v v' : View} (begins : Begins limit v v') : v'.size + 2 ≤ v.size := by
  cases begins with
  | leaf readable few made =>
    have some := List.length_pos_iff.2 (spelled_leaf_ne_nil readable)
    simp only [View.size, List.length_append]
    omega
  | _ =>
    simp only [View.size, Expectation.weight, List.length_cons, List.length_append, List.map_cons,
      List.sum_cons]
    omega

theorem Meets.size_lt {e : Expectation} {S : List Symbol} {E : List Expectation}
    {F : List Checked} {v : View} (meets : Meets limit e ⟨S, E, F⟩ v) :
    v.size < View.size ⟨S, e :: E, F⟩ := by
  cases meets with
  | fragment begins =>
    have smaller := begins.size_le
    simp only [View.size, Expectation.weight, List.map_cons, List.sum_cons] at smaller ⊢
    omega
  | andVGoesOn goesOn begins =>
    have smaller := begins.size_le
    simp only [View.size, Expectation.weight, List.map_cons, List.sum_cons] at smaller ⊢
    omega
  | _ =>
    simp only [View.size, Expectation.weight, List.length_cons, List.map_cons, List.sum_cons]
    omega

/-! ## Runs -/

theorem yields_nil_iff {S : List Symbol} {F : List Checked} {m : Checked} :
    Yields limit ⟨S, [], F⟩ m ↔ S = [] ∧ F = [m] := by
  constructor
  · rintro ⟨⟩
    exact ⟨rfl, rfl⟩
  · rintro ⟨rfl, rfl⟩
    exact .done m

theorem yields_cons_iff {e : Expectation} {S : List Symbol} {E : List Expectation}
    {F : List Checked} {m : Checked} :
    Yields limit ⟨S, e :: E, F⟩ m ↔ ∃ v, Meets limit e ⟨S, E, F⟩ v ∧ Yields limit v m := by
  constructor
  · intro yields
    cases yields with
    | step meets yields => exact ⟨_, meets, yields⟩
  · rintro ⟨v, meets, yields⟩
    exact .step meets yields

theorem finish_eq_ok_iff {st : State} {m : Checked} :
    finish st = .ok m ↔ st.tokens = [] ∧ st.found = [m] := by
  unfold finish
  split
  · next same =>
    simp [same, scriptError]
  · next none one => simp [none, one]
  · next other =>
    constructor
    · rintro ⟨⟩
    · rintro ⟨-, one⟩
      exact (other m one).elim

/-- With as many steps as the view is large, the decoder finds what the rules yield. -/
theorem run_eq_ok_iff {ctx : Context} (readsPoints : ctx.settings.decodeKey = Key.ofBytes)
    {steps : Nat} {st : State} {m : Checked} (enough : st.view.size < steps) :
    run ctx steps st = .ok m ↔ Yields ctx.settings.limit st.view m := by
  induction steps generalizing st with
  | zero => exact (Nat.not_lt_zero _ enough).elim
  | succ steps ih =>
    obtain ⟨tokens, expected, found⟩ := st
    cases expected with
    | nil =>
      rw [run, finish_eq_ok_iff, State.view, yields_nil_iff, List.map_eq_nil_iff]
    | cons e expected =>
      rw [run, bind_eq_ok_iff, State.view, yields_cons_iff]
      constructor
      · rintro ⟨next, met, ran⟩
        have meets := meets_of_meet readsPoints met
        have smaller : next.view.size < steps := by
          have less := meets.size_lt
          exact Nat.lt_of_lt_of_le less (Nat.le_of_lt_succ enough)
        exact ⟨next.view, meets, (ih smaller).1 ran⟩
      · rintro ⟨v, meets, yields⟩
        have rule : Meets ctx.settings.limit e (State.view ⟨tokens, expected, found⟩) v := meets
        obtain ⟨next, met, rfl⟩ := exists_meet readsPoints rule
        have smaller : next.view.size < steps := by
          have less := meets.size_lt
          exact Nat.lt_of_lt_of_le less (Nat.le_of_lt_succ enough)
        exact ⟨next, met, (ih smaller).2 yields⟩

/-- A script decodes to what the rules yield for its tokens. -/
theorem decode_eq_ok_iff {s : Settings} (readsPoints : s.decodeKey = Key.ofBytes) {script : Bytes}
    {m : Checked} :
    decode s script = .ok m ↔ ∃ tokens, Token.lex script = .ok tokens ∧
      Yields s.limit ⟨tokens.map Token.symbol, [.fragment, .maybeAndV], []⟩ m := by
  unfold decode
  cases Token.lex script with
  | error failure => simp [scriptError]
  | ok tokens =>
    have enough : (start tokens).view.size < maxSteps tokens := by
      simp [start, State.view, View.size, Expectation.weight, maxSteps]
    simp only [Except.ok.injEq, exists_eq_left']
    refine run_eq_ok_iff ?_ enough
    exact readsPoints

end LockScript.Decoder
