import Mathlib.Data.List.Forall2
import Mathlib.Data.List.Perm.Basic
import LockScript.Policy.Normal
import LockScript.Proofs.Fragment.Canonical
import LockScript.Proofs.Policy.Expression

/-!
Policies in order.

Sorting takes from a policy what its branches are and leaves out how they are arranged. The texts of
sorted branches are those of the branches in ascending order, so that they tell which texts there are
and how often (`Policy.map_text_inOrder_eq_iff`). The text of a policy tells the condition, or the
threshold and the texts of its branches, that it is written for (`Policy.text_leaf_eq_iff`,
`Policy.threshold_inj`). So two policies are written the same after sorting just if one of them is the
other with the branches of its thresholds in another order.
-/

namespace LockScript

open Expression (isPunctuation)

/-! ## Conditions -/

namespace Condition

/-- Conditions of one kind with the same fields, where keys are the same if they are written the
same. -/
inductive Alike : Condition → Condition → Prop
  | refl (c : Condition) : Alike c c
  | key {signer signer' : Key} (texts : signer.text = signer'.text) :
    Alike (.key signer) (.key signer')

/-- A condition of a known kind; a key is written without parentheses and commas, as it is if there
are only letters, digits and underscores. -/
def Worded : Condition → Prop
  | .key signer => ∀ b ∈ signer.text, isPunctuation b = false
  | .other _ => False
  | _ => True

/-- The place of the name of a condition among the names that policies are written with. -/
def place : Condition → Nat
  | .unsatisfiable => 0
  | .trivial => 1
  | .key _ => 2
  | .keyHash _ => 3
  | .after _ => 4
  | .older _ => 5
  | .hash f _ => 6 + match f with
    | .sha256 => 0
    | .hash256 => 1
    | .ripemd160 => 2
    | .hash160 => 3
  | .other _ => spellings.length

variable {c d : Condition}

theorem Worded.known (worded : c.Worded) : ∀ kind, c ≠ .other kind := by
  intro kind same
  rw [same] at worded
  cases worded

theorem Worded.nested_words (worded : c.Worded) : ∀ word ∈ c.words, Nested word := by
  have digest (data : Bytes) : Nested (Hex.encode data) :=
    nested_of_plain fun b member => isPunctuation_of_mem_hex member
  have lock (n : Nat) : Nested (Decimal.ofNat n) :=
    nested_of_plain fun b member => isPunctuation_of_isDigit (Decimal.isDigit_of_mem_ofNat member)
  cases c with
  | unsatisfiable => exact List.forall_mem_nil _
  | trivial => exact List.forall_mem_nil _
  | key signer => exact List.forall_mem_singleton.2 (nested_of_plain worded)
  | keyHash committed => exact List.forall_mem_singleton.2 (digest _)
  | after n => exact List.forall_mem_singleton.2 (lock _)
  | older n => exact List.forall_mem_singleton.2 (lock _)
  | hash f image => exact List.forall_mem_singleton.2 (digest _)
  | other kind => cases worded

theorem getElem?_place (known : ∀ kind, c ≠ .other kind) : spellings[c.place]? = some c.name := by
  cases c with
  | hash f image => cases f <;> rfl
  | other kind => exact absurd rfl (known kind)
  | _ => rfl

theorem place_inj (worded : c.Worded) (worded' : d.Worded) (names : c.name = d.name) :
    c.place = d.place := by
  have distinct : spellings.Nodup := by decide
  have inside : c.place < spellings.length :=
    (List.getElem?_eq_some_iff.1 (getElem?_place worded.known)).1
  apply (List.getElem?_inj inside distinct).1
  rw [getElem?_place worded.known, getElem?_place worded'.known, names]

/-- Conditions are alike just if they are written with the same name and the same words. -/
theorem alike_iff (worded : c.Worded) (worded' : d.Worded) :
    c.Alike d ↔ c.name = d.name ∧ c.words = d.words := by
  constructor
  · intro alike
    cases alike with
    | refl => exact ⟨rfl, rfl⟩
    | key texts => exact ⟨rfl, congrArg (fun text => [text]) texts⟩
  · intro ⟨names, words⟩
    have place := place_inj worded worded' names
    have lock {n n' : UInt32} (same : [Decimal.ofNat n.toNat] = [Decimal.ofNat n'.toNat]) :
        n = n' :=
      UInt32.toNat_inj.1 (Decimal.ofNat_inj (List.cons.inj same).1)
    cases c <;> cases d
    case unsatisfiable.unsatisfiable => exact .refl _
    case trivial.trivial => exact .refl _
    case key.key => exact .key (List.cons.inj words).1
    case keyHash.keyHash committed committed' =>
      rw [Digest.ext_bytes (Hex.encode_inj (List.cons.inj words).1)]
      exact .refl _
    case after.after =>
      rw [lock words]
      exact .refl _
    case older.older =>
      rw [lock words]
      exact .refl _
    case hash.hash f image f' image' =>
      have functions : f = f' := by
        cases f <;> cases f' <;> first | rfl | cases place
      rw [functions, Hex.encode_inj (List.cons.inj words).1]
      exact .refl _
    case hash.other => cases worded'
    case other.hash => cases worded
    case other.other => cases worded
    -- any two other kinds have names at different places
    all_goals
      simp only [Condition.place, spellings, List.length_cons, List.length_nil] at place
      omega

end Condition

/-! ## Policies as they are written -/

namespace Policy

/-- A policy that is made of conditions of known kinds, with keys that are written as words. -/
inductive Worded : Policy → Prop
  | leaf {c : Condition} {attached : List Policy} (own : c.Worded) : Worded (.leaf c attached)
  | threshold {k : Int} {branches : List Policy} (each : ∀ p ∈ branches, Worded p) :
    Worded (.threshold k branches)

/-- The name that a policy is written with. -/
def opening : Policy → String
  | .leaf c _ => c.name
  | .threshold k branches =>
    if k = branches.length then "and" else if k = 1 then "or" else "thresh"

/-- The arguments of a list of texts: without any there is an empty one. -/
def listed : List Bytes → List Bytes
  | [] => [[]]
  | texts => texts

/-- The arguments that a policy is written with. -/
def arguments : Policy → List Bytes
  | .leaf c _ => c.words
  | .threshold k branches =>
    if k = branches.length ∨ k = 1 then listed (branches.map text)
    else Decimal.ofInt k :: listed (branches.map text)

variable {p q : Policy} {k k' : Int} {branches branches' : List Policy}

theorem parenthesized_listed (texts : List Bytes) :
    parenthesized (listed texts) = byte '(' :: (joinWith [byte ','] texts ++ [byte ')']) := by
  cases texts <;> rfl

theorem joinWith_cons_listed (word : Bytes) (texts : List Bytes) :
    joinWith [byte ','] (word :: listed texts) =
      word ++ [byte ','] ++ joinWith [byte ','] texts := by
  cases texts <;> rfl

theorem listed_inj {texts texts' : List Bytes} (some : ∀ text ∈ texts, text ≠ [])
    (some' : ∀ text ∈ texts', text ≠ []) (same : listed texts = listed texts') :
    texts = texts' := by
  cases texts with
  | nil =>
    cases texts' with
    | nil => rfl
    | cons text' rest' => exact absurd (List.cons.inj same).1.symm (some' text' List.mem_cons_self)
  | cons text rest =>
    cases texts' with
    | nil => exact absurd (List.cons.inj same).1 (some text List.mem_cons_self)
    | cons text' rest' => exact same

/-- The three ways in which a threshold is written. -/
theorem threshold_cases (k : Int) (branches : List Policy) :
    ((threshold k branches).opening = "and" ∧
      (threshold k branches).arguments = listed (branches.map text) ∧ k = branches.length) ∨
    ((threshold k branches).opening = "or" ∧
      (threshold k branches).arguments = listed (branches.map text) ∧ k = 1) ∨
    ((threshold k branches).opening = "thresh" ∧
      (threshold k branches).arguments = Decimal.ofInt k :: listed (branches.map text)) := by
  by_cases all : k = branches.length
  · left
    exact ⟨if_pos all, if_pos (.inl all), all⟩
  · by_cases one : k = 1
    · right
      left
      refine ⟨?_, if_pos (.inr one), one⟩
      rw [opening, if_neg all, if_pos one]
    · right
      right
      refine ⟨?_, if_neg (not_or.2 ⟨all, one⟩)⟩
      rw [opening, if_neg all, if_neg one]

theorem text_threshold (k : Int) (branches : List Policy) :
    (threshold k branches).text =
      utf8 (threshold k branches).opening ++ parenthesized (threshold k branches).arguments := by
  rw [text, textsOf_eq_map, opening, arguments]
  split
  · next all =>
    have name : utf8 "and(" = utf8 "and" ++ [byte '('] := by decide +kernel
    rw [if_pos (.inl all), parenthesized_listed, name]
    simp
  · next some =>
    split
    · next one =>
      have name : utf8 "or(" = utf8 "or" ++ [byte '('] := by decide +kernel
      rw [if_pos (.inr one), parenthesized_listed, name]
      simp
    · next many =>
      rw [if_neg (not_or.2 ⟨some, many⟩), parenthesized, joinWith_cons_listed, utf8_thresh]
      · simp
      · exact List.cons_ne_nil _ _

/-- A policy is written as a name with arguments. -/
theorem Worded.text_eq (worded : p.Worded) :
    p.text = utf8 p.opening ++ parenthesized p.arguments := by
  cases worded with
  | leaf own => exact Condition.text_eq own.known
  | threshold each => exact text_threshold _ _

theorem opening_threshold (k : Int) (branches : List Policy) :
    (threshold k branches).opening ∈ ["and", "or", "thresh"] := by
  rcases threshold_cases k branches with ⟨name, -⟩ | ⟨name, -⟩ | ⟨name, -⟩
  · rw [name]
    decide
  · rw [name]
    decide
  · rw [name]
    decide

theorem Worded.opening_mem (worded : p.Worded) : p.opening ∈ spellings := by
  cases worded with
  | leaf own => exact Condition.name_mem_spellings own.known
  | @threshold k branches each =>
    have all : ∀ name ∈ ["and", "or", "thresh"], name ∈ spellings := by decide
    exact all _ (opening_threshold k branches)

theorem Worded.plain_opening (worded : p.Worded) :
    ∀ b ∈ utf8 p.opening, isPunctuation b = false := by
  intro b member
  have graphic := ((isGraphic_spelling _ worded.opening_mem).2 b member).1
  exact (Expression.isGraphic_cases graphic).2.1

theorem Worded.text_ne_nil (worded : p.Worded) : p.text ≠ [] := by
  rw [worded.text_eq]
  exact List.append_ne_nil_of_left_ne_nil (isGraphic_spelling _ worded.opening_mem).1 _

theorem nested_arguments_threshold (each : ∀ p ∈ branches, Nested p.text) :
    ∀ a ∈ (threshold k branches).arguments, Nested a := by
  have texts : ∀ a ∈ listed (branches.map text), Nested a := by
    cases branches with
    | nil => exact List.forall_mem_singleton.2 nested_nil
    | cons p rest => exact List.forall_mem_map.2 each
  rw [arguments]
  split
  · exact texts
  · exact List.forall_mem_cons.2 ⟨nested_of_plain (Decimal.plain_ofInt k), texts⟩

theorem Worded.nested (worded : p.Worded) : Nested p.text := by
  have whole := worded
  induction worded with
  | leaf own =>
    rw [whole.text_eq]
    exact (nested_of_plain whole.plain_opening).append (nested_parenthesized own.nested_words)
  | threshold each ih =>
    rw [whole.text_eq]
    apply (nested_of_plain whole.plain_opening).append
    apply nested_parenthesized
    exact nested_arguments_threshold fun p member => ih p member (each p member)

theorem Worded.nested_arguments (worded : p.Worded) : ∀ a ∈ p.arguments, Nested a := by
  cases worded with
  | leaf own => exact own.nested_words
  | threshold each => exact nested_arguments_threshold fun p member => (each p member).nested

/-! ## What a text tells -/

/-- The text of a policy tells its name and its arguments. -/
theorem opening_inj (worded : p.Worded) (worded' : q.Worded) (same : p.text = q.text) :
    p.opening = q.opening ∧ p.arguments = q.arguments := by
  rw [worded.text_eq, worded'.text_eq] at same
  obtain ⟨names, rest⟩ :=
    append_parenthesized_inj worded.plain_opening worded'.plain_opening same
  exact ⟨utf8_inj.1 names, parenthesized_inj worded.nested_arguments worded'.nested_arguments rest⟩

theorem text_leaf_eq_iff {c d : Condition} {attached attached' : List Policy} (own : c.Worded)
    (own' : d.Worded) : (leaf c attached).text = (leaf d attached').text ↔ c.Alike d := by
  rw [Condition.alike_iff own own']
  constructor
  · exact opening_inj (.leaf own) (.leaf own')
  · intro ⟨names, words⟩
    rw [text, text, Condition.text_eq own.known, Condition.text_eq own'.known, names, words]

/-- The text of a threshold tells how many branches are needed and how they are written. -/
theorem threshold_inj (each : ∀ p ∈ branches, p.Worded) (each' : ∀ p ∈ branches', p.Worded)
    (same : (threshold k branches).text = (threshold k' branches').text) :
    k = k' ∧ branches.map text = branches'.map text := by
  obtain ⟨names, args⟩ := opening_inj (.threshold each) (.threshold each') same
  have some (branches : List Policy) (each : ∀ p ∈ branches, p.Worded) :
      ∀ written ∈ branches.map text, written ≠ [] :=
    List.forall_mem_map.2 fun p member => (each p member).text_ne_nil
  have texts := @listed_inj _ _ (some branches each) (some branches' each')
  have second := threshold_cases k' branches'
  rcases threshold_cases k branches with ⟨name, own, all⟩ | ⟨name, own, one⟩ | ⟨name, own⟩ <;>
  rcases second with ⟨name', own', all'⟩ | ⟨name', own', one'⟩ | ⟨name', own'⟩ <;>
  rw [name, name'] at names <;>
  rw [own, own'] at args <;>
  try exact absurd names (by decide)
  · have same := texts args
    have lengths := congrArg List.length same
    rw [List.length_map, List.length_map] at lengths
    exact ⟨by omega, same⟩
  · exact ⟨one.trans one'.symm, texts args⟩
  · obtain ⟨number, rest⟩ := List.cons.inj args
    exact ⟨Decimal.ofInt_inj number, texts rest⟩

/-- A condition is not written as a threshold. -/
theorem leaf_ne_threshold {c : Condition} {attached : List Policy} (own : c.Worded)
    (each : ∀ p ∈ branches, p.Worded) : (leaf c attached).text ≠ (threshold k branches).text := by
  intro same
  obtain ⟨names, -⟩ := opening_inj (.leaf own) (.threshold each) same
  have among : c.name ∈ ["and", "or", "thresh"] := by
    have written := opening_threshold k branches
    rw [← names] at written
    exact written
  have absent (f : HashFunction) : f.name ∉ ["and", "or", "thresh"] := by
    cases f <;> decide
  cases c with
  | unsatisfiable => exact absurd among (by decide)
  | trivial => exact absurd among (by decide)
  | key signer => exact absurd among (by decide : "pk" ∉ ["and", "or", "thresh"])
  | keyHash committed => exact absurd among (by decide : "pkh" ∉ ["and", "or", "thresh"])
  | after lock => exact absurd among (by decide : "after" ∉ ["and", "or", "thresh"])
  | older lock => exact absurd among (by decide : "older" ∉ ["and", "or", "thresh"])
  | hash f image => exact absent f among
  | other kind => cases own

/-! ## Branches in order -/

theorem inOrder_perm (ps : List Policy) : (inOrder ps).Perm ps := by
  unfold inOrder
  have pairs := (List.mergeSort_perm (ps.map fun p => (p.text, p)) (fun a b => a.1 ≤ b.1)).map (·.2)
  rw [List.map_map] at pairs
  exact pairs.trans (List.Perm.of_eq (List.map_id ps))

/-- The texts of the branches in order are the texts in order. -/
theorem map_text_inOrder (ps : List Policy) :
    (inOrder ps).map text = (ps.map text).mergeSort (fun a b => a ≤ b) := by
  have keyed : ∀ a ∈ (ps.map fun p => (p.text, p)).mergeSort (fun a b => a.1 ≤ b.1),
      a.2.text = a.1 := by
    intro a member
    obtain ⟨p, -, rfl⟩ := List.mem_map.1 (List.mem_mergeSort.1 member)
    rfl
  calc (inOrder ps).map text
      = ((ps.map fun p => (p.text, p)).mergeSort (fun a b => a.1 ≤ b.1)).map (·.1) := by
        rw [inOrder, List.map_map]
        exact List.map_congr_left keyed
    _ = ((ps.map fun p => (p.text, p)).map (·.1)).mergeSort (fun a b => a ≤ b) :=
        List.map_mergeSort fun a _ b _ => rfl
    _ = (ps.map text).mergeSort (fun a b => a ≤ b) := by
        rw [List.map_map]
        rfl

/-- Branches have the same texts in order just if they have the same texts in some order. -/
theorem map_text_inOrder_eq_iff {ps qs : List Policy} :
    (inOrder ps).map text = (inOrder qs).map text ↔ (ps.map text).Perm (qs.map text) := by
  have perm (ps : List Policy) := (inOrder_perm ps).map text
  constructor
  · intro same
    exact (perm ps).symm.trans ((List.Perm.of_eq same).trans (perm qs))
  · intro rearranged
    have ordered (ps : List Policy) :
        ((inOrder ps).map text).Pairwise (fun a b => decide (a ≤ b) = true) := by
      rw [map_text_inOrder]
      apply List.pairwise_mergeSort
      · intro a b c
        simpa using List.le_trans
      · intro a b
        simpa using List.le_total a b
    apply List.Perm.eq_of_pairwise _ (ordered ps) (ordered qs)
    · exact (perm ps).trans (rearranged.trans (perm qs).symm)
    · intro a b _ _
      simpa using List.le_antisymm

/-! ## Rearranged lists -/

section Rearranged

variable {α β : Type} {l m : List α} {f : α → β}

/-- The values of two lists are the same in some order just if the first list can be rearranged so
that they are the same one by one. -/
theorem perm_map_iff : (l.map f).Perm (m.map f) ↔
    ∃ between, l.Perm between ∧ List.Forall₂ (fun a b => f a = f b) between m := by
  constructor
  · intro perm
    have values : List.Forall₂ (fun a b => f a = b) l (l.map f) :=
      List.forall₂_map_right_iff.2 (List.forall₂_same.2 fun a _ => rfl)
    have composed : Relation.Comp (List.Forall₂ fun a b => f a = b) List.Perm l (m.map f) :=
      ⟨l.map f, values, perm⟩
    rw [List.forall₂_comp_perm_eq_perm_comp_forall₂] at composed
    obtain ⟨between, order, same⟩ := composed
    exact ⟨between, order, List.forall₂_map_right_iff.1 same⟩
  · intro ⟨between, order, same⟩
    have values : between.map f = m.map f := by
      rw [← List.forall₂_eq_eq_eq, List.forall₂_map_left_iff, List.forall₂_map_right_iff]
      exact same
    rw [← values]
    exact order.map f

end Rearranged

/-! ## Sorted policies -/

/-- Policies that differ in the order of the branches of their thresholds, at any depth, and in keys
that are written the same. -/
inductive Reordered : Policy → Policy → Prop
  | leaf {c d : Condition} {attached attached' : List Policy} (alike : c.Alike d) :
    Reordered (.leaf c attached) (.leaf d attached')
  | threshold {k : Int} {branches between branches' : List Policy} (order : branches.Perm between)
    (each : List.Forall₂ Reordered between branches') :
    Reordered (.threshold k branches) (.threshold k branches')

theorem sorted_threshold (k : Int) (branches : List Policy) :
    (threshold k branches).sorted = threshold k (inOrder (branches.map sorted)) := by
  rw [sorted, sortedAll_eq_map]

theorem text_threshold_congr (texts : branches.map text = branches'.map text) :
    (threshold k branches).text = (threshold k branches').text := by
  have lengths := congrArg List.length texts
  rw [List.length_map, List.length_map] at lengths
  rw [text, text, textsOf_eq_map, textsOf_eq_map, texts, lengths]

theorem worded_inOrder (each : ∀ p ∈ branches, p.sorted.Worded) :
    ∀ p ∈ inOrder (branches.map sorted), p.Worded := by
  intro p member
  exact List.forall_mem_map.2 each p ((inOrder_perm _).mem_iff.1 member)

theorem Worded.sorted (worded : p.Worded) : p.sorted.Worded := by
  induction worded with
  | leaf own => exact .leaf own
  | threshold each ih =>
    rw [sorted_threshold]
    exact .threshold (worded_inOrder ih)

/-- The texts of sorted thresholds are the same just if they need as many branches, and these are
written the same after sorting in some order. -/
theorem text_sorted_threshold_eq_iff (each : ∀ p ∈ branches, p.Worded)
    (each' : ∀ p ∈ branches', p.Worded) :
    (threshold k branches).sorted.text = (threshold k' branches').sorted.text ↔
      k = k' ∧ (branches.map fun p => p.sorted.text).Perm (branches'.map fun p => p.sorted.text) := by
  have inOrder_iff := @map_text_inOrder_eq_iff (branches.map sorted) (branches'.map sorted)
  rw [List.map_map, List.map_map] at inOrder_iff
  rw [sorted_threshold, sorted_threshold]
  constructor
  · intro same
    obtain ⟨count, texts⟩ := threshold_inj (worded_inOrder fun p member => (each p member).sorted)
      (worded_inOrder fun p member => (each' p member).sorted) same
    exact ⟨count, inOrder_iff.1 texts⟩
  · intro ⟨count, perm⟩
    rw [count]
    exact text_threshold_congr (inOrder_iff.2 perm)

theorem text_sorted_leaf_ne {c : Condition} {attached : List Policy} (own : c.Worded)
    (each : ∀ p ∈ branches, p.Worded) :
    (leaf c attached).sorted.text ≠ (threshold k branches).sorted.text := by
  rw [sorted_threshold]
  exact leaf_ne_threshold own (worded_inOrder fun p member => (each p member).sorted)

/-- Policies are written the same after sorting just if they are the same up to the order of
branches. -/
theorem text_sorted_eq_iff (worded : p.Worded) (worded' : q.Worded) :
    p.sorted.text = q.sorted.text ↔ p.Reordered q := by
  induction worded generalizing q with
  | @leaf c attached own =>
    cases worded' with
    | @leaf d attached' own' =>
      rw [sorted, sorted, text_leaf_eq_iff own own']
      constructor
      · exact .leaf
      · intro reordered
        cases reordered with
        | leaf alike => exact alike
    | threshold each' =>
      constructor
      · intro same
        exact absurd same (text_sorted_leaf_ne own each')
      · intro reordered
        cases reordered
  | @threshold k branches each ih =>
    cases worded' with
    | leaf own' =>
      constructor
      · intro same
        exact absurd same.symm (text_sorted_leaf_ne own' each)
      · intro reordered
        cases reordered
    | @threshold k' branches' each' =>
      rw [text_sorted_threshold_eq_iff each each', perm_map_iff]
      -- branches in between are among the first ones, of which the claim is known
      constructor
      · rintro ⟨rfl, between, order, same⟩
        refine .threshold order (forall₂_of_mem same ?_)
        intro a inside b inside'
        exact (ih a (order.mem_iff.2 inside) (each' b inside')).1
      · intro reordered
        cases reordered with
        | threshold order similar =>
          refine ⟨rfl, _, order, forall₂_of_mem similar ?_⟩
          intro a inside b inside'
          exact (ih a (order.mem_iff.2 inside) (each' b inside')).2

/-- Two of a point, a disjunction and an empty conjunction. -/
def arranged : Policy :=
  .threshold 2 [.leaf (.key (.point Point.generator)) [],
    .threshold 1 [.leaf (.older 5) [], .leaf (.hash .sha256 [0x2A]) []], .threshold 0 []]

/-- The same in another order, with a name in place of the point. -/
def rearranged : Policy :=
  .threshold 2 [.threshold 1 [.leaf (.hash .sha256 [0x2A]) [], .leaf (.older 5) []],
    .threshold 0 [], .leaf (.key (.named (Key.point Point.generator).text)) []]

theorem text_sorted_eq_rearranged : arranged.Worded ∧ rearranged.Worded ∧
    arranged.Reordered rearranged ∧ arranged.sorted.text = rearranged.sorted.text := by
  have letters : ∀ g ∈ glyphs (Key.point Point.generator).text, Key.isNameChar g.shown = true := by
    decide +kernel
  have plain : ∀ b ∈ (Key.point Point.generator).text, isPunctuation b = false :=
    fun b member => Key.isPunctuation_of_isNameChar letters member
  have first : arranged.Worded := by
    refine .threshold (List.forall_mem_cons.2 ⟨.leaf plain, forall_mem_pair.2 ⟨?_, ?_⟩⟩)
    · exact .threshold (forall_mem_pair.2 ⟨.leaf True.intro, .leaf True.intro⟩)
    · exact .threshold (List.forall_mem_nil _)
  have second : rearranged.Worded := by
    refine .threshold (List.forall_mem_cons.2 ⟨?_, forall_mem_pair.2 ⟨?_, .leaf plain⟩⟩)
    · exact .threshold (forall_mem_pair.2 ⟨.leaf True.intro, .leaf True.intro⟩)
    · exact .threshold (List.forall_mem_nil _)
  have reordered : arranged.Reordered rearranged := by
    refine .threshold (List.perm_append_singleton _ [_, _]).symm (.cons ?_ (.cons ?_ (.cons ?_ .nil)))
    · exact .threshold (.swap _ _ _) (.cons (.leaf (.refl _)) (.cons (.leaf (.refl _)) .nil))
    · exact .threshold (.refl _) .nil
    · exact .leaf (.key rfl)
  exact ⟨first, second, reordered, (text_sorted_eq_iff first second).2 reordered⟩

end Policy

end LockScript
