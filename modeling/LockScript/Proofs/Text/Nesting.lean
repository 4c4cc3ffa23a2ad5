import LockScript.Fragment.Text
import LockScript.Proofs.Text.Words

/-!
Texts with parentheses.

A text is nested if its parentheses match and all its commas are within them. Such a text ends where
it ends: what comes after it, if that is a comma or a closing parenthesis, cannot be taken for a part
of it (`Nested.append_inj`). Hence arguments in parentheses can be told from what is written of them
(`parenthesized_inj`), whatever they are, as long as they are nested.
-/

namespace LockScript

open Expression (isPunctuation)

/-- The number of open parentheses after one more byte, if it does not end the text. -/
def depthAfter (depth : Nat) (b : UInt8) : Option Nat :=
  if b = byte '(' then some (depth + 1)
  else if b = byte ')' then if depth = 0 then none else some (depth - 1)
  else if b = byte ',' ∧ depth = 0 then none
  else some depth

/-- A text in which every parenthesis is closed, with commas only between parentheses. -/
def Nested (text : Bytes) : Prop := ∀ depth, text.foldlM depthAfter depth = some depth

/-- A text between parentheses: there may be commas. -/
def Enclosed (text : Bytes) : Prop :=
  ∀ depth, text.foldlM depthAfter (depth + 1) = some (depth + 1)

theorem nested_nil : Nested [] := fun _ => rfl

theorem Nested.append {a b : Bytes} (first : Nested a) (second : Nested b) : Nested (a ++ b) := by
  intro depth
  rw [List.foldlM_append, first depth]
  exact second depth

theorem Enclosed.append {a b : Bytes} (first : Enclosed a) (second : Enclosed b) :
    Enclosed (a ++ b) := by
  intro depth
  rw [List.foldlM_append, first depth]
  exact second depth

theorem Nested.enclosed {text : Bytes} (nested : Nested text) : Enclosed text :=
  fun depth => nested (depth + 1)

theorem enclosed_comma : Enclosed [byte ','] := fun _ => rfl

/-- A word without punctuation is nested. -/
theorem nested_of_plain {word : Bytes} (plain : ∀ b ∈ word, isPunctuation b = false) :
    Nested word := by
  intro depth
  induction word with
  | nil => rfl
  | cons b rest ih =>
    have first := plain b List.mem_cons_self
    have stays : depthAfter depth b = some depth := by
      simp only [isPunctuation, Bool.or_eq_false_iff, decide_eq_false_iff_not] at first
      simp [depthAfter, first]
    rw [List.foldlM_cons, stays]
    exact ih fun c member => plain c (List.mem_cons_of_mem _ member)

/-- What is between parentheses is nested with them. -/
theorem Enclosed.nested {text : Bytes} (enclosed : Enclosed text) :
    Nested (byte '(' :: (text ++ [byte ')'])) := by
  intro depth
  have opened : depthAfter depth (byte '(') = some (depth + 1) := rfl
  rw [List.foldlM_cons, opened]
  change (text ++ [byte ')']).foldlM depthAfter (depth + 1) = some depth
  rw [List.foldlM_append, enclosed depth]
  rfl

theorem enclosed_joinWith {args : List Bytes} (each : ∀ a ∈ args, Nested a) :
    Enclosed (joinWith [byte ','] args) := by
  induction args with
  | nil => exact nested_nil.enclosed
  | cons a rest ih =>
    have head := (each a List.mem_cons_self).enclosed
    have tail := ih fun b member => each b (List.mem_cons_of_mem _ member)
    cases rest with
    | nil => exact head
    | cons b rest => exact (head.append enclosed_comma).append tail

/-! ## Where a text ends -/

/-- What may come after a nested text: nothing, a comma or a closing parenthesis. -/
def Stops (rest : Bytes) : Prop := ∀ b ∈ rest.head?, b = byte ',' ∨ b = byte ')'

theorem stops_comma (rest : Bytes) : Stops (byte ',' :: rest) := by
  rintro b ⟨⟩
  exact .inl rfl

theorem stops_closing (rest : Bytes) : Stops (byte ')' :: rest) := by
  rintro b ⟨⟩
  exact .inr rfl

/-- A nested text does not go on with what may come after one. -/
theorem Nested.eq_nil_of_append {a c rest : Bytes} (nested : Nested a) (longer : Nested (a ++ c))
    (stops : Stops (c ++ rest)) : c = [] := by
  cases c with
  | nil => rfl
  | cons b c =>
    have ended : depthAfter 0 b = none := by
      rcases stops b rfl with rfl | rfl <;> rfl
    have whole := longer 0
    rw [List.foldlM_append, nested 0, Option.bind_eq_bind, Option.bind_some, List.foldlM_cons,
      ended] at whole
    cases whole

/-- Two nested texts that are followed by a comma or a closing parenthesis are the same if they are
so with what follows. -/
theorem Nested.append_inj {a b r s : Bytes} (first : Nested a) (second : Nested b)
    (stops : Stops r) (stops' : Stops s) (same : a ++ r = b ++ s) : a = b ∧ r = s := by
  rcases List.append_eq_append_iff.1 same with ⟨c, rfl, rfl⟩ | ⟨c, rfl, rfl⟩
  · rw [first.eq_nil_of_append second stops]
    simp
  · rw [second.eq_nil_of_append first stops']
    simp

theorem joinWith_inj {args args' : List Bytes} (some : args ≠ []) (some' : args' ≠ [])
    (each : ∀ a ∈ args, Nested a) (each' : ∀ a ∈ args', Nested a)
    (same : joinWith [byte ','] args ++ [byte ')'] = joinWith [byte ','] args' ++ [byte ')']) :
    args = args' := by
  induction args generalizing args' with
  | nil => exact absurd rfl some
  | cons a rest ih =>
    cases args' with
    | nil => exact absurd rfl some'
    | cons b rest' =>
      have inj {r s : Bytes} := (each a List.mem_cons_self).append_inj (r := r) (s := s)
        (each' b List.mem_cons_self)
      have tail := fun c member => each c (List.mem_cons_of_mem a member)
      have tail' := fun c member => each' c (List.mem_cons_of_mem b member)
      cases rest with
      | nil =>
        cases rest' with
        | nil =>
          rw [(inj (stops_closing _) (stops_closing _) same).1]
        | cons b' rest' =>
          rw [joinWith_cons_cons, List.append_assoc, List.append_assoc] at same
          cases (inj (stops_closing _) (stops_comma _) same).2
      | cons a' rest =>
        rw [joinWith_cons_cons, List.append_assoc, List.append_assoc] at same
        cases rest' with
        | nil => cases (inj (stops_comma _) (stops_closing _) same).2
        | cons b' rest' =>
          rw [joinWith_cons_cons, List.append_assoc, List.append_assoc] at same
          obtain ⟨rfl, others⟩ := inj (stops_comma _) (stops_comma _) same
          have equal := ih (by simp) (by simp) tail tail' (List.cons.inj others).2
          rw [equal]

/-! ## Names with arguments -/

/-- Arguments in parentheses; nothing if there are none. -/
def parenthesized : List Bytes → Bytes
  | [] => []
  | args => byte '(' :: (joinWith [byte ','] args ++ [byte ')'])

theorem nested_parenthesized {args : List Bytes} (each : ∀ a ∈ args, Nested a) :
    Nested (parenthesized args) := by
  cases args with
  | nil => exact nested_nil
  | cons a rest => exact (enclosed_joinWith each).nested

theorem eq_of_head?_parenthesized {args : List Bytes} {b : UInt8}
    (first : (parenthesized args).head? = some b) : b = byte '(' := by
  cases args with
  | nil => cases first
  | cons a rest => exact (Option.some.inj first).symm

theorem parenthesized_inj {args args' : List Bytes} (each : ∀ a ∈ args, Nested a)
    (each' : ∀ a ∈ args', Nested a) (same : parenthesized args = parenthesized args') :
    args = args' := by
  cases args with
  | nil =>
    cases args' with
    | nil => rfl
    | cons b rest' => cases same
  | cons a rest =>
    cases args' with
    | nil => cases same
    | cons b rest' =>
      exact joinWith_inj (List.cons_ne_nil a rest) (List.cons_ne_nil b rest') each each'
        (List.cons.inj same).2

/-- A name without punctuation is told from the arguments after it. -/
theorem append_parenthesized_inj {name name' : Bytes} {args args' : List Bytes}
    (plain : ∀ b ∈ name, isPunctuation b = false) (plain' : ∀ b ∈ name', isPunctuation b = false)
    (same : name ++ parenthesized args = name' ++ parenthesized args') :
    name = name' ∧ parenthesized args = parenthesized args' := by
  have opens (args : List Bytes) (b : UInt8) (first : (parenthesized args).head? = some b) :
      isPunctuation b = true := by
    rw [eq_of_head?_parenthesized first]
    decide
  have parts := congrArg (splitBefore isPunctuation) same
  rw [splitBefore_word plain (opens args), splitBefore_word plain' (opens args')] at parts
  exact Prod.mk.inj parts

theorem length_le_joinWith {args : List Bytes} {a : Bytes} (member : a ∈ args) :
    a.length ≤ (joinWith [byte ','] args).length := by
  induction args with
  | nil => cases member
  | cons b rest ih =>
    cases rest with
    | nil =>
      cases List.mem_singleton.1 member
      exact Nat.le_refl _
    | cons c rest =>
      simp only [joinWith_cons_cons, List.length_append, List.length_singleton]
      rcases List.mem_cons.1 member with rfl | later
      · omega
      · have tail := ih later
        omega

/-- An argument is shorter than the arguments in their parentheses. -/
theorem length_lt_parenthesized {args : List Bytes} {a : Bytes} (member : a ∈ args) :
    a.length < (parenthesized args).length := by
  have inside := length_le_joinWith member
  cases args with
  | nil => cases member
  | cons b rest =>
    simp only [parenthesized, List.length_cons, List.length_append, List.length_nil]
    omega

end LockScript
