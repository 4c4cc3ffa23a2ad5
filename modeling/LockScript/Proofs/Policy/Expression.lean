import LockScript.Policy.Concrete
import LockScript.Proofs.Expression.RoundTrip
import LockScript.Proofs.Key.Reading

/-!
Concrete policies as expressions.

A concrete policy is written as an expression: a name, before it the weight of a branch, and after it
words and the parts of the policy. A policy is readable if it is made as policies are that were read.
The text of a readable policy is that of its expression (`Readable.text_expression`), whose names are
such as expressions have (`Readable.isName_expression`).
-/

namespace LockScript

open Expression (IsName isGraphic isName_of_isGraphic)

/-! ## Conditions -/

theorem forall_mem_pair {α : Type} {a b : α} {P : α → Prop} :
    (∀ x ∈ [a, b], P x) ↔ P a ∧ P b := by
  rw [List.forall_mem_cons, List.forall_mem_singleton]

/-- The names that policies are written with. -/
def spellings : List String :=
  ["UNSATISFIABLE", "TRIVIAL", "pk", "pkh", "after", "older", "sha256", "hash256", "ripemd160",
    "hash160", "and", "or", "thresh"]

theorem isGraphic_spelling : ∀ s ∈ spellings, utf8 s ≠ [] ∧
    ∀ b ∈ utf8 s, isGraphic b = true ∧ b ≠ byte '@' := by decide +kernel

theorem utf8_thresh : utf8 "thresh(" = utf8 "thresh" ++ [byte '('] := by decide +kernel

namespace Condition

/-- The words that a condition is written with after its name. -/
def words : Condition → List Bytes
  | .key signer => [signer.text]
  | .keyHash committed => [Hex.encode committed.bytes]
  | .after lock => [Decimal.ofNat lock.toNat]
  | .older lock => [Decimal.ofNat lock.toNat]
  | .hash _ image => [Hex.encode image]
  | _ => []

/-- A condition that is read back from its text. -/
def Legible (read : Key.Reader) : Condition → Prop
  | .unsatisfiable => True
  | .trivial => True
  | .key signer => read signer.text = .ok signer ∧ IsName signer.text
  | .after lock => lock ≠ 0
  | .older lock => lock ≠ 0
  | .hash f image => image.length = f.width
  | _ => False

/-- A condition of a known kind is written as its name and its words. -/
theorem text_eq {c : Condition} (known : ∀ kind, c ≠ .other kind) :
    c.text = utf8 c.name ++ parenthesized c.words := by
  cases c with
  | unsatisfiable => exact (List.append_nil _).symm
  | trivial => exact (List.append_nil _).symm
  | key signer => rfl
  | keyHash committed => rfl
  | after lock => rfl
  | older lock => rfl
  | hash f image => rfl
  | other kind => exact absurd rfl (known kind)

theorem name_mem_spellings {c : Condition} (known : ∀ kind, c ≠ .other kind) :
    c.name ∈ spellings := by
  have functions (f : HashFunction) : f.name ∈ spellings := by
    cases f <;> decide
  cases c with
  | unsatisfiable => decide
  | trivial => decide
  | key signer => exact (by decide : "pk" ∈ spellings)
  | keyHash committed => exact (by decide : "pkh" ∈ spellings)
  | after lock => exact (by decide : "after" ∈ spellings)
  | older lock => exact (by decide : "older" ∈ spellings)
  | hash f image => exact functions f
  | other kind => exact absurd rfl (known kind)

theorem Legible.known {read : Key.Reader} {c : Condition} (legible : c.Legible read) :
    ∀ kind, c ≠ .other kind := by
  intro kind same
  rw [same] at legible
  cases legible

end Condition

/-! ## Words -/

theorem isGraphic_of_isDigit {b : UInt8} (digit : Decimal.isDigit b = true) :
    isGraphic b = true := by
  have all : ∀ m : Fin 256, Decimal.isDigit (UInt8.ofNat m) = true →
      isGraphic (UInt8.ofNat m) = true := by decide +kernel
  simpa using all ⟨b.toNat, b.toNat_lt⟩ (by simpa using digit)

theorem isGraphic_of_mem_ofNat {n : Nat} {b : UInt8} (member : b ∈ Decimal.ofNat n) :
    isGraphic b = true :=
  isGraphic_of_isDigit (Decimal.isDigit_of_mem_ofNat member)

theorem isName_ofNat (n : Nat) : IsName (Decimal.ofNat n) := by
  apply isName_of_isGraphic
  · simp [Decimal.ofNat, Nat.toDigits_ne_nil]
  · exact fun b member => isGraphic_of_mem_ofNat member

theorem isName_hex {data : Bytes} (some : data ≠ []) : IsName (Hex.encode data) := by
  have all : ∀ m : Fin 16, isGraphic (Hex.digit (UInt8.ofNat m)) = true := by decide +kernel
  apply isName_of_isGraphic
  · intro empty
    have none := congrArg List.length empty
    rw [Hex.length_encode, List.length_nil] at none
    exact some (List.eq_nil_of_length_eq_zero (by omega))
  · intro b member
    obtain ⟨m, rfl⟩ := exists_digit_of_mem_hex member
    exact all m

theorem Key.isGraphic_of_isNameChar {c : Char} (name : isNameChar c = true) {b : UInt8}
    (member : b ∈ String.utf8EncodeChar c) : isGraphic b = true := by
  have small : c.val.toNat < 128 := by
    simp only [isNameChar, Bool.or_eq_true, Bool.and_eq_true, decide_eq_true_eq, Char.le_def,
      UInt32.le_iff_toNat_le] at name
    rcases name with ((⟨-, high⟩ | ⟨-, high⟩) | ⟨-, high⟩) | rfl
    · exact Nat.lt_of_le_of_lt high (by decide)
    · exact Nat.lt_of_le_of_lt high (by decide)
    · exact Nat.lt_of_le_of_lt high (by decide)
    · decide
  have all : ∀ m : Fin 128, isNameChar (Char.ofNat m) = true → isGraphic (UInt8.ofNat m) = true := by
    decide +kernel
  rw [String.utf8EncodeChar, if_pos (by omega), List.mem_singleton] at member
  rw [member]
  apply all ⟨c.val.toNat, small⟩
  rwa [show Char.ofNat c.val.toNat = c from c.ofNat_toNat]

/-- A name that a key was read from is a name in an expression. -/
theorem Key.isName_of_ofName {t : Bytes} {k : Key} (read : ofName t = .ok k) : IsName k.text := by
  obtain ⟨rfl, chars⟩ := ofName_eq_ok read
  apply isName_of_isGraphic
  · intro empty
    have none : t = [] := empty
    rw [ofName, if_pos none] at read
    cases read
  · intro b member
    rw [text, ← flatMap_bytes_glyphs t, List.mem_flatMap] at member
    obtain ⟨g, among, inside⟩ := member
    have name := chars g among
    cases g with
    | char c => exact isGraphic_of_isNameChar name inside
    | stray other => cases name

/-- So is the text of every key that is read. -/
theorem Key.isName_of_read {read : Reader} (standard : read.Standard) {t : Bytes} {k : Key}
    (found : read t = .ok k) : IsName k.text := by
  have point (p : Point) : IsName (Key.point p).text := by
    apply isName_hex
    intro empty
    have size := p.length_bytes
    rw [empty] at size
    cases size
  have ofHex (read : Key.ofHex t = .ok k) : IsName k.text := by
    obtain ⟨p, rfl⟩ := exists_point_of_ofHex read
    exact point p
  cases standard with
  | text =>
    unfold Key.ofText at found
    split at found
    · split at found
      · exact ofHex found
      · exact isName_of_ofName found
    · exact isName_of_ofName found
  | hex => exact ofHex found
  | name => exact isName_of_ofName found

namespace Condition

variable {read : Key.Reader} {c : Condition}

theorem Legible.isName (legible : c.Legible read) : ∀ word ∈ c.words, IsName word := by
  cases c with
  | unsatisfiable => exact fun word member => absurd member List.not_mem_nil
  | trivial => exact fun word member => absurd member List.not_mem_nil
  | key signer => exact List.forall_mem_singleton.2 legible.2
  | after lock => exact List.forall_mem_singleton.2 (isName_ofNat _)
  | older lock => exact List.forall_mem_singleton.2 (isName_ofNat _)
  | hash f image =>
    refine List.forall_mem_singleton.2 (isName_hex ?_)
    intro empty
    rw [empty] at legible
    cases f <;> cases legible
  | keyHash committed => cases legible
  | other kind => cases legible

end Condition

namespace ConcretePolicy

/-! ## The expression of a concrete policy -/

/-- The name that a head is written with. -/
def Head.name : Head → Bytes
  | .condition c => utf8 c.name
  | .and => utf8 "and"
  | .or => utf8 "or"
  | .threshold _ => utf8 "thresh"

/-- The words that a head is written with before its parts. -/
def Head.words : Head → List Bytes
  | .condition c => c.words
  | .threshold k => [Decimal.ofInt k]
  | _ => []

/-- A word as an expression. -/
def wordExpression (text : Bytes) : Expression := .node text 0 []

mutual

/-- The expression that a concrete policy with a weight is written as. -/
def expression (weight : UInt32) : ConcretePolicy → Expression
  | .node head operands branches => .node (weighted weight head.name) 0
    (head.words.map wordExpression ++ (expressionsOf operands ++ branchExpressionsOf branches))

/-- The expressions of several concrete policies. -/
def expressionsOf : List ConcretePolicy → List Expression
  | [] => []
  | p :: rest => p.expression 1 :: expressionsOf rest

/-- The expressions of several branches. -/
def branchExpressionsOf : List (UInt32 × ConcretePolicy) → List Expression
  | [] => []
  | (weight, p) :: rest => p.expression weight :: branchExpressionsOf rest

end

/-- A concrete policy as it is read: of conditions that are read back, with two operands or branches
where two are taken, with weights other than zero, and with thresholds that are within reach. -/
inductive Readable (readKey : Key.Reader) : ConcretePolicy → Prop
  | condition {c : Condition} (own : c.Legible readKey) : Readable readKey (.node (.condition c) [] [])
  | and {x y : ConcretePolicy} (first : Readable readKey x) (second : Readable readKey y) :
    Readable readKey (.node .and [x, y] [])
  | or {v w : UInt32} {x y : ConcretePolicy} (weight : v ≠ 0) (weight' : w ≠ 0)
    (first : Readable readKey x) (second : Readable readKey y) :
    Readable readKey (.node .or [] [(v, x), (w, y)])
  | threshold {k : Nat} {operands : List ConcretePolicy} (some : k ≠ 0) (few : k ≤ operands.length)
    (small : k < 2 ^ 31) (each : ∀ p ∈ operands, Readable readKey p) :
    Readable readKey (.node (.threshold k) operands [])

variable {readKey : Key.Reader} {p : ConcretePolicy}

theorem textsOf_eq_map (ps : List ConcretePolicy) : textsOf ps = ps.map text := by
  induction ps with
  | nil => rfl
  | cons p rest ih => rw [textsOf, ih, List.map_cons]

theorem expressionsOf_eq_map (ps : List ConcretePolicy) :
    expressionsOf ps = ps.map (expression 1) := by
  induction ps with
  | nil => rfl
  | cons p rest ih => rw [expressionsOf, ih, List.map_cons]

theorem weighted_append (weight : UInt32) (a b : Bytes) :
    weighted weight (a ++ b) = weighted weight a ++ b := by
  unfold weighted
  split
  · rfl
  · rw [List.append_assoc, List.cons_append]

theorem weighted_one (text : Bytes) : weighted 1 text = text := if_pos rfl

theorem map_text_wordExpression (words : List Bytes) :
    (words.map wordExpression).map Expression.text = words := by
  rw [List.map_map]
  exact List.map_id words

/-- The text of a readable policy is that of its expression. -/
theorem Readable.text_expression (readable : Readable readKey p) (weight : UInt32) :
    (p.expression weight).text = weighted weight p.text := by
  induction readable generalizing weight with
  | @condition c own =>
    rw [expression, Expression.text_node, text, c.text_eq own.known, weighted_append]
    simp only [expressionsOf, branchExpressionsOf, List.append_nil, map_text_wordExpression,
      Head.words, Head.name]
  | and first second ih ih' =>
    rw [expression, Expression.text_node, text, call, weighted_append]
    simp only [expressionsOf, branchExpressionsOf, Head.words, Head.name, List.map_cons,
      List.map_nil, List.nil_append, List.append_nil, ih, ih', weighted_one, textsOf]
    rfl
  | or weight weight' first second ih ih' =>
    rw [expression, Expression.text_node, text, call, weighted_append]
    simp only [expressionsOf, branchExpressionsOf, Head.words, Head.name, List.map_cons,
      List.map_nil, List.nil_append, ih, ih', branchTextsOf]
    rfl
  | @threshold k operands some few small each ih =>
    have texts : (expressionsOf operands).map Expression.text = textsOf operands := by
      rw [expressionsOf_eq_map, textsOf_eq_map, List.map_map]
      apply List.map_congr_left
      intro p member
      exact (ih p member 1).trans (weighted_one _)
    rw [expression, Expression.text_node, text, utf8_thresh, List.append_assoc, List.append_assoc,
      weighted_append]
    simp only [branchExpressionsOf, Head.words, Head.name, List.map_cons, List.map_nil,
      List.append_nil, List.singleton_append, texts]
    cases operands with
    | nil => exact absurd (Nat.le_zero.1 few) some
    | cons p rest =>
      rw [textsOf, parenthesized, joinWith_cons_cons]
      · simp only [wordExpression, Expression.text, List.append_assoc, List.cons_append,
          List.nil_append]
      · exact List.cons_ne_nil _ _

theorem isName_weighted {s : String} (known : s ∈ spellings) (weight : UInt32) :
    IsName (weighted weight (utf8 s)) := by
  obtain ⟨some, graphic⟩ := isGraphic_spelling s known
  unfold weighted
  split
  · exact isName_of_isGraphic some fun b member => (graphic b member).1
  · apply isName_of_isGraphic
    · exact List.append_ne_nil_of_right_ne_nil _ (List.cons_ne_nil _ _)
    · intro b member
      rcases List.mem_append.1 member with digit | later
      · exact isGraphic_of_mem_ofNat digit
      · rcases List.mem_cons.1 later with rfl | inside
        · decide
        · exact (graphic b inside).1

theorem isName_wordExpression {words : List Bytes} (named : ∀ word ∈ words, IsName word) :
    ∀ e ∈ words.map wordExpression, ∀ name ∈ e.names, IsName name := by
  intro e member
  obtain ⟨word, among, rfl⟩ := List.mem_map.1 member
  exact List.forall_mem_singleton.2 (named word among)

/-- The names in the expression of a readable policy are names. -/
theorem Readable.isName_expression (readable : Readable readKey p) (weight : UInt32) :
    ∀ name ∈ (p.expression weight).names, IsName name := by
  induction readable generalizing weight with
  | @condition c own =>
    have named := isName_weighted (c.name_mem_spellings own.known) weight
    refine Expression.forall_mem_names_iff.2 ⟨named, ?_⟩
    simp only [expressionsOf, branchExpressionsOf, List.append_nil]
    exact isName_wordExpression own.isName
  | and first second ih ih' =>
    refine Expression.forall_mem_names_iff.2 ⟨isName_weighted (by decide) weight, ?_⟩
    exact List.forall_mem_cons.2 ⟨ih 1, List.forall_mem_singleton.2 (ih' 1)⟩
  | or _ _ first second ih ih' =>
    refine Expression.forall_mem_names_iff.2 ⟨isName_weighted (by decide) weight, ?_⟩
    exact List.forall_mem_cons.2 ⟨ih _, List.forall_mem_singleton.2 (ih' _)⟩
  | @threshold k operands some few small each ih =>
    refine Expression.forall_mem_names_iff.2 ⟨isName_weighted (by decide) weight, ?_⟩
    rw [branchExpressionsOf, List.append_nil, expressionsOf_eq_map]
    refine List.forall_mem_append.2 ⟨isName_wordExpression ?_, ?_⟩
    · exact List.forall_mem_singleton.2 (isName_ofNat k)
    · intro e member
      obtain ⟨p, among, rfl⟩ := List.mem_map.1 member
      exact ih p among 1

end ConcretePolicy

end LockScript
