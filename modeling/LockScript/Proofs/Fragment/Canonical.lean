import LockScript.Proofs.Fragment.Renaming
import LockScript.Proofs.Fragment.RoundTrip
import LockScript.Proofs.Text.Nesting

/-!
What the canonical text of a fragment tells.

Two fragments with the same canonical text are the same up to keys that are written alike, whether or
not they have a type (`Fragment.nominal_eq_of_text_eq`). A text is taken apart into the letters before
its colon, its name and its arguments (`Fragment.exists_spelling`), none of which can be mistaken for
another, and the arguments are shorter than the text.
-/

namespace LockScript

open Expression (isPunctuation)

/-! ## Words -/

theorem Decimal.ofNat_inj {n m : Nat} (same : Decimal.ofNat n = Decimal.ofNat m) : n = m := by
  have values := congrArg Decimal.value? same
  rw [Decimal.value?_ofNat, Decimal.value?_ofNat] at values
  exact Option.some.inj values

theorem Decimal.ofInt_inj {n m : Int} (same : Decimal.ofInt n = Decimal.ofInt m) : n = m := by
  have noSign {a b : Nat} (sign : byte '-' :: Decimal.ofNat a = Decimal.ofNat b) : False := by
    have digit := Decimal.isDigit_of_mem_ofNat (sign ▸ List.mem_cons_self)
    cases digit
  unfold Decimal.ofInt at same
  split at same
  · split at same
    · have size := Decimal.ofNat_inj (List.cons.inj same).2
      omega
    · exact (noSign same).elim
  · split at same
    · exact (noSign same.symm).elim
    · have size := Decimal.ofNat_inj same
      omega

theorem Hex.encode_inj {a b : Bytes} (same : Hex.encode a = Hex.encode b) : a = b := by
  have decoded := congrArg Hex.decode same
  rw [Hex.decode_encode, Hex.decode_encode] at decoded
  exact Except.ok.inj decoded

/-- A number is written without punctuation, also if it is negative. -/
theorem Decimal.plain_ofInt (k : Int) : ∀ b ∈ Decimal.ofInt k, isPunctuation b = false := by
  have digits (n : Nat) : ∀ b ∈ Decimal.ofNat n, isPunctuation b = false :=
    fun b member => isPunctuation_of_isDigit (Decimal.isDigit_of_mem_ofNat member)
  unfold Decimal.ofInt
  split
  · exact List.forall_mem_cons.2 ⟨by decide, digits _⟩
  · exact digits _

theorem Head.name_inj {h h' : Head} (same : utf8 h.name = utf8 h'.name) : h = h' := by
  have found := congrArg Head.ofName? same
  rw [Head.ofName?_name, Head.ofName?_name] at found
  exact Option.some.inj found

theorem Letter.byte_inj {l l' : Letter} (same : byte l.char = byte l'.char) : l = l' := by
  have found := congrArg Letter.ofByte? same
  rw [Letter.ofByte?_byte, Letter.ofByte?_byte] at found
  exact Option.some.inj found

/-! ## Keys by their texts -/

/-- The key that is known by the text of another only. -/
def Key.nominal (k : Key) : Key := .named k.text

/-- The leaf with names in place of its keys. -/
def Leaf.nominal : Leaf → Leaf
  | .pk key => .pk key.nominal
  | .multi k keys => .multi k (keys.map Key.nominal)
  | l => l

namespace Fragment

mutual

/-- The fragment with names in place of its keys. -/
def nominal : Fragment → Fragment
  | .leaf l => .leaf l.nominal
  | .wrap w x => .wrap w x.nominal
  | .pair op x y => .pair op x.nominal y.nominal
  | .andor x y z => .andor x.nominal y.nominal z.nominal
  | .thresh k subs => .thresh k (nominals subs)

/-- The fragments with names in place of their keys. -/
def nominals : List Fragment → List Fragment
  | [] => []
  | x :: rest => x.nominal :: nominals rest

end

theorem nominals_eq_map (subs : List Fragment) : nominals subs = subs.map nominal := by
  induction subs with
  | nil => rfl
  | cons x rest ih => rw [nominals, ih, List.map_cons]

/-- No key is written with punctuation. -/
def Plain (f : Fragment) : Prop := ∀ key ∈ f.keys, ∀ b ∈ key.text, isPunctuation b = false

theorem mem_keys_of_child {f x : Fragment} {key : Key} (child : x ∈ f.children)
    (inside : key ∈ x.keys) : key ∈ f.keys := by
  cases f with
  | leaf l => cases child
  | thresh k subs =>
    rw [keys, keysOf_eq_flatMap]
    exact List.mem_flatMap.2 ⟨x, child, inside⟩
  | _ =>
    simp only [children, List.mem_cons, List.not_mem_nil, or_false] at child
    simp only [keys, List.mem_append]
    grind

theorem Plain.part {f x : Fragment} (plain : f.Plain) (child : x ∈ f.children) : x.Plain :=
  fun key inside => plain key (mem_keys_of_child child inside)

end Fragment

/-! ## Letters, names and arguments -/

namespace Letter

/-- The fragment that is written with a letter before another. -/
def around : Letter → Fragment → Fragment
  | .wrapper w, x => .wrap w x
  | .thenOne, x => .pair .andV x (.leaf .one)
  | .orZero, x => .pair .orI x (.leaf .zero)
  | .zeroOr, x => .pair .orI (.leaf .zero) x

theorem nominal_around (l : Letter) (x : Fragment) : (l.around x).nominal = l.around x.nominal := by
  cases l <;> rfl

theorem keys_around (l : Letter) (x : Fragment) : (l.around x).keys = x.keys := by
  cases l <;> simp [around, Fragment.keys, Leaf.keys]

end Letter

namespace Leaf

/-- The name that a leaf is written with. -/
def head : Leaf → Head
  | .zero => .zero
  | .one => .one
  | .pk _ => .pk
  | .pkHash _ => .pkHash
  | .after _ => .after
  | .older _ => .older
  | .hashLock f _ => .hashLock f
  | .multi _ _ => .multi

/-- The words that a leaf is written with after its name. -/
def args : Leaf → List Bytes
  | .zero => []
  | .one => []
  | .pk key => [key.text]
  | .pkHash hash => [Hex.encode hash.bytes]
  | .after lock => [Decimal.ofNat lock.toNat]
  | .older lock => [Decimal.ofNat lock.toNat]
  | .hashLock _ image => [Hex.encode image.bytes]
  | .multi k keys => Decimal.ofInt k :: keys.map Key.text

theorem text_eq (l : Leaf) : l.text = utf8 l.head.name ++ parenthesized l.args := by
  cases l <;> first | rfl | exact (List.append_nil _).symm

theorem nested_args {l : Leaf} (plain : ∀ key ∈ l.keys, ∀ b ∈ key.text, isPunctuation b = false) :
    ∀ a ∈ l.args, Nested a := by
  have digest (data : Bytes) : Nested (Hex.encode data) :=
    nested_of_plain fun b member => isPunctuation_of_mem_hex member
  have lock (n : Nat) : Nested (Decimal.ofNat n) :=
    nested_of_plain fun b member => isPunctuation_of_isDigit (Decimal.isDigit_of_mem_ofNat member)
  cases l with
  | zero => exact List.forall_mem_nil _
  | one => exact List.forall_mem_nil _
  | pk key => exact List.forall_mem_singleton.2 (nested_of_plain (plain key List.mem_cons_self))
  | pkHash hash => exact List.forall_mem_singleton.2 (digest _)
  | after n => exact List.forall_mem_singleton.2 (lock _)
  | older n => exact List.forall_mem_singleton.2 (lock _)
  | hashLock f image => exact List.forall_mem_singleton.2 (digest _)
  | multi k keys =>
    refine List.forall_mem_cons.2 ⟨nested_of_plain (Decimal.plain_ofInt k), ?_⟩
    intro a member
    rcases List.mem_map.1 member with ⟨key, inside, rfl⟩
    exact nested_of_plain (plain key inside)

/-- A leaf is told by its name and its words, up to keys that are written alike. -/
theorem nominal_eq {l l' : Leaf} (head : l.head = l'.head) (args : l.args = l'.args) :
    l.nominal = l'.nominal := by
  have digest {width : Nat} {d d' : Digest width}
      (same : [Hex.encode d.bytes] = [Hex.encode d'.bytes]) : d = d' :=
    Digest.ext_bytes (Hex.encode_inj (List.cons.inj same).1)
  have lock {n n' : UInt32} (same : [Decimal.ofNat n.toNat] = [Decimal.ofNat n'.toNat]) : n = n' :=
    UInt32.toNat_inj.1 (Decimal.ofNat_inj (List.cons.inj same).1)
  cases l <;> cases l' <;> cases head
  case zero.zero => rfl
  case one.one => rfl
  case pk.pk key key' => exact congrArg (fun text => Leaf.pk (.named text)) (List.cons.inj args).1
  case pkHash.pkHash hash hash' => exact congrArg Leaf.pkHash (digest args)
  case after.after n n' => exact congrArg Leaf.after (lock args)
  case older.older n n' => exact congrArg Leaf.older (lock args)
  case hashLock.hashLock f image image' => exact congrArg (Leaf.hashLock f) (digest args)
  case multi.multi k keys k' keys' =>
    rcases List.cons.inj args with ⟨number, texts⟩
    have names := congrArg (List.map Key.named) texts
    rw [List.map_map, List.map_map] at names
    rw [Decimal.ofInt_inj number]
    exact congrArg (Leaf.multi k') names

end Leaf

namespace Fragment

theorem textsOf_eq_map (subs : List Fragment) : textsOf subs = subs.map text := by
  induction subs with
  | nil => rfl
  | cons x rest ih => rw [textsOf, ih, List.map_cons, text]

/-- A fragment that no letter stands for, with the name that it is written with and what comes after
the name: some words and then some parts. -/
inductive Core : Fragment → Head → List Bytes → List Fragment → Prop
  | leaf (l : Leaf) : Core (.leaf l) l.head l.args []
  | pair (op : Combinator) (x y : Fragment) : Core (.pair op x y) (.pair op) [] [x, y]
  | andN (x y : Fragment) : Core (.andor x y (.leaf .zero)) .andN [] [x, y]
  | andor (x y z : Fragment) : Core (.andor x y z) .andor [] [x, y, z]
  | thresh (k : Int) (subs : List Fragment) : Core (.thresh k subs) .thresh [Decimal.ofInt k] subs

/-- How a fragment is written: some letters around a core, then the name of the core and its
arguments. -/
structure Spelling (f : Fragment) (letters : List Letter) (core : Fragment) (head : Head)
    (words : List Bytes) (parts : List Fragment) : Prop where
  whole : f = letters.foldr Letter.around core
  called : Core core head words parts
  written : f.wrappedText = ⟨letters.map (byte ·.char),
    utf8 head.name ++ parenthesized (words ++ parts.map text)⟩

section Spellings

variable {f x core : Fragment} {letters : List Letter} {head : Head} {words : List Bytes}
  {parts : List Fragment}

theorem Core.spelling (called : Core f head words parts)
    (written : f.wrappedText = ⟨[], utf8 head.name ++ parenthesized (words ++ parts.map text)⟩) :
    Spelling f [] f head words parts :=
  ⟨rfl, called, written⟩

theorem Spelling.letter (spelling : Spelling x letters core head words parts) (l : Letter)
    (written : (l.around x).wrappedText = x.wrappedText.wrap l.char) :
    Spelling (l.around x) (l :: letters) core head words parts := by
  refine ⟨?_, spelling.called, ?_⟩
  · rw [List.foldr_cons, ← spelling.whole]
  · rw [written, spelling.written]
    rfl

end Spellings

theorem exists_spelling_pair {op : Combinator} {x y : Fragment}
    (left : ∃ letters core head words parts, Spelling x letters core head words parts)
    (right : ∃ letters core head words parts, Spelling y letters core head words parts) :
    ∃ letters core head words parts,
      Spelling (.pair op x y) letters core head words parts := by
  by_cases one : op = .andV ∧ y.isOne = true
  · rcases left with ⟨_, _, _, _, _, spelling⟩
    obtain ⟨rfl, one⟩ := one
    cases eq_of_isOne one
    exact ⟨_, _, _, _, _, spelling.letter .thenOne rfl⟩
  · by_cases zeroFirst : op = .orI ∧ x.isZero = true
    · rcases right with ⟨_, _, _, _, _, spelling⟩
      obtain ⟨rfl, zero⟩ := zeroFirst
      cases eq_of_isZero zero
      exact ⟨_, _, _, _, _, spelling.letter .zeroOr rfl⟩
    · by_cases zeroLast : op = .orI ∧ y.isZero = true
      · rcases left with ⟨_, _, _, _, _, spelling⟩
        obtain ⟨rfl, zero⟩ := zeroLast
        cases eq_of_isZero zero
        refine ⟨_, _, _, _, _, spelling.letter .orZero ?_⟩
        rw [Letter.around, wrappedText, if_neg one, if_neg zeroFirst, if_pos ⟨rfl, rfl⟩]
        rfl
      · refine ⟨[], _, _, _, _, (Core.pair op x y).spelling ?_⟩
        rw [wrappedText, if_neg one, if_neg zeroFirst, if_neg zeroLast]
        rfl

theorem exists_spelling (f : Fragment) :
    ∃ letters core head words parts, Spelling f letters core head words parts := by
  induction f with
  | leaf l =>
    refine ⟨[], _, _, _, _, (Core.leaf l).spelling ?_⟩
    rw [wrappedText, l.text_eq, List.map_nil, List.append_nil]
  | wrap w x ih =>
    rcases ih with ⟨_, _, _, _, _, spelling⟩
    exact ⟨_, _, _, _, _, spelling.letter (.wrapper w) rfl⟩
  | pair op x y ihx ihy => exact exists_spelling_pair ihx ihy
  | andor x y z ihx ihy ihz =>
    by_cases zero : z.isZero = true
    · cases eq_of_isZero zero
      exact ⟨[], _, _, _, _, (Core.andN x y).spelling rfl⟩
    · refine ⟨[], _, _, _, _, (Core.andor x y z).spelling ?_⟩
      rw [wrappedText, if_neg zero]
      rfl
  | thresh k subs ih =>
    refine ⟨[], _, _, _, _, (Core.thresh k subs).spelling ?_⟩
    rw [wrappedText, textsOf_eq_map]
    rfl

/-! ## Telling fragments by their texts -/

section Openings

variable {letters letters' name name' tail tail' : Bytes}

/-- The letters and the name are made of the same bytes, and what comes after each of them is not. -/
theorem splitBefore_joined (lettered : ∀ b ∈ letters, isNameByte b = true)
    (named : ∀ b ∈ name, isNameByte b = true) (opens : ∀ b, tail.head? = some b → b = byte '(') :
    splitBefore (!isNameByte ·) (WrappedText.joined ⟨letters, name ++ tail⟩) =
      if letters = [] then (name, tail) else (letters, byte ':' :: (name ++ tail)) := by
  unfold WrappedText.joined
  split
  · apply splitBefore_word
    · intro b member
      rw [named b member]
      rfl
    · intro b first
      rw [opens b first]
      decide
  · apply splitBefore_word
    · intro b member
      rw [lettered b member]
      rfl
    · rintro b ⟨⟩
      decide

/-- The letters, the name and what comes after it are told from the text. -/
theorem joined_inj (lettered : ∀ b ∈ letters, isNameByte b = true)
    (lettered' : ∀ b ∈ letters', isNameByte b = true) (named : ∀ b ∈ name, isNameByte b = true)
    (named' : ∀ b ∈ name', isNameByte b = true) (opens : ∀ b, tail.head? = some b → b = byte '(')
    (opens' : ∀ b, tail'.head? = some b → b = byte '(')
    (same : WrappedText.joined ⟨letters, name ++ tail⟩ =
      WrappedText.joined ⟨letters', name' ++ tail'⟩) :
    letters = letters' ∧ name ++ tail = name' ++ tail' := by
  have parts := congrArg (splitBefore (!isNameByte ·)) same
  rw [splitBefore_joined lettered named opens, splitBefore_joined lettered' named' opens'] at parts
  -- Without letters, the name ends at a parenthesis and not at a colon.
  have noColon {rest : Bytes} (tail : Bytes) (opens : ∀ b, tail.head? = some b → b = byte '(') :
      tail ≠ byte ':' :: rest := by
    rintro rfl
    exact absurd (opens _ rfl) (by decide)
  split at parts
  · next none =>
    split at parts
    · next none' =>
      rcases Prod.mk.inj parts with ⟨rfl, rfl⟩
      exact ⟨none.trans none'.symm, rfl⟩
    · exact absurd (Prod.mk.inj parts).2 (noColon tail opens)
  · split at parts
    · exact absurd (Prod.mk.inj parts).2.symm (noColon tail' opens')
    · rcases Prod.mk.inj parts with ⟨same, body⟩
      exact ⟨same, (List.cons.inj body).2⟩

theorem name_inj {h h' : Head} {args args' : List Bytes}
    (same : utf8 h.name ++ parenthesized args = utf8 h'.name ++ parenthesized args') :
    h = h' ∧ parenthesized args = parenthesized args' := by
  have plain (h : Head) (b : UInt8) (member : b ∈ utf8 h.name) : isPunctuation b = false :=
    isPunctuation_of_isNameByte (h.isNameByte_of_mem_name member)
  obtain ⟨names, rest⟩ := append_parenthesized_inj (plain h) (plain h') same
  exact ⟨Head.name_inj names, rest⟩

end Openings

section Cores

variable {f g core core' : Fragment} {letters letters' : List Letter} {head head' : Head}
  {words words' : List Bytes} {parts parts' : List Fragment}

theorem Core.plain_part (called : Core f head words parts) (plain : f.Plain) :
    ∀ x ∈ parts, x.Plain := by
  intro x member
  apply plain.part
  cases called with
  | leaf l => cases member
  | andN x y => exact List.mem_append_left [_] member
  | _ => exact member

theorem Core.nested_word (called : Core f head words parts) (plain : f.Plain) :
    ∀ word ∈ words, Nested word := by
  cases called with
  | leaf l => exact Leaf.nested_args plain
  | thresh k subs => exact List.forall_mem_singleton.2 (nested_of_plain (Decimal.plain_ofInt k))
  | _ => exact List.forall_mem_nil _

theorem map_nominal_eq (alike : ∀ x ∈ parts, ∀ y ∈ parts', x.text = y.text → x.nominal = y.nominal)
    (same : parts.map text = parts'.map text) : parts.map nominal = parts'.map nominal := by
  induction parts generalizing parts' with
  | nil =>
    rw [List.map_eq_nil_iff.1 same.symm]
  | cons x rest ih =>
    cases parts' with
    | nil => cases same
    | cons y rest' =>
      rcases List.cons.inj same with ⟨first, others⟩
      have tail := ih (fun a inside b inside' =>
        alike a (List.mem_cons_of_mem _ inside) b (List.mem_cons_of_mem _ inside')) others
      rw [List.map_cons, List.map_cons, alike x List.mem_cons_self y List.mem_cons_self first, tail]

/-- A core is told by its name and its arguments, if the parts among these are. -/
theorem Core.nominal_eq (first : Core f head words parts) (second : Core g head' words' parts')
    (named : head = head') (same : words ++ parts.map text = words' ++ parts'.map text)
    (alike : ∀ x ∈ parts, ∀ y ∈ parts', x.text = y.text → x.nominal = y.nominal) :
    f.nominal = g.nominal := by
  have told := map_nominal_eq alike
  cases first with
  | leaf l =>
    cases second with
    | leaf l' =>
      rw [List.map_nil, List.append_nil, List.append_nil] at same
      rw [nominal, nominal, Leaf.nominal_eq named same]
    | _ => cases l <;> cases named
  | pair op x y =>
    cases second with
    | leaf l => cases l <;> cases named
    | pair op' x' y' =>
      cases named
      rcases List.cons.inj (told same) with ⟨first, rest⟩
      rw [nominal, nominal, first, (List.cons.inj rest).1]
    | _ => cases named
  | andN x y =>
    cases second with
    | leaf l => cases l <;> cases named
    | andN x' y' =>
      rcases List.cons.inj (told same) with ⟨first, rest⟩
      simp only [nominal, first, (List.cons.inj rest).1]
    | _ => cases named
  | andor x y z =>
    cases second with
    | leaf l => cases l <;> cases named
    | andor x' y' z' =>
      rcases List.cons.inj (told same) with ⟨first, rest⟩
      rcases List.cons.inj rest with ⟨second, third⟩
      rw [nominal, nominal, first, second, (List.cons.inj third).1]
    | _ => cases named
  | thresh k subs =>
    cases second with
    | leaf l => cases l <;> cases named
    | thresh k' subs' =>
      rcases List.cons.inj same with ⟨number, texts⟩
      rw [nominal, nominal, nominals_eq_map, nominals_eq_map, told texts, Decimal.ofInt_inj number]
    | _ => cases named

theorem keys_foldr_around (letters : List Letter) (core : Fragment) :
    (letters.foldr Letter.around core).keys = core.keys := by
  induction letters with
  | nil => rfl
  | cons l rest ih => rw [List.foldr_cons, Letter.keys_around, ih]

theorem nominal_foldr_around (letters : List Letter) (core : Fragment) :
    (letters.foldr Letter.around core).nominal = letters.foldr Letter.around core.nominal := by
  induction letters with
  | nil => rfl
  | cons l rest ih => rw [List.foldr_cons, List.foldr_cons, Letter.nominal_around, ih]

theorem Spelling.plain_core (spelling : Spelling f letters core head words parts)
    (plain : f.Plain) : core.Plain := by
  unfold Plain at plain
  rw [spelling.whole, keys_foldr_around] at plain
  exact plain

theorem Spelling.text_eq (spelling : Spelling f letters core head words parts) :
    f.text = WrappedText.joined ⟨letters.map (byte ·.char),
      utf8 head.name ++ parenthesized (words ++ parts.map text)⟩ := by
  rw [text, spelling.written]

theorem Spelling.length_part_lt (spelling : Spelling f letters core head words parts) {x : Fragment}
    (member : x ∈ parts) : x.text.length < f.text.length := by
  have among : x.text ∈ words ++ parts.map text :=
    List.mem_append_right _ (List.mem_map_of_mem member)
  have shorter := length_lt_parenthesized among
  rw [spelling.text_eq, WrappedText.joined]
  split <;>
    simp only [List.length_append, List.length_cons] <;>
    omega

theorem isNameByte_of_mem_letters (letters : List Letter) :
    ∀ b ∈ letters.map (byte ·.char), isNameByte b = true := by
  intro b member
  rcases List.mem_map.1 member with ⟨l, -, rfl⟩
  exact l.isNameByte_byte

theorem Spelling.nested_args (spelling : Spelling f letters core head words parts)
    (plain : f.Plain) (each : ∀ x ∈ parts, x.Plain → Nested x.text) :
    ∀ a ∈ words ++ parts.map text, Nested a := by
  have core := spelling.plain_core plain
  refine List.forall_mem_append.2 ⟨spelling.called.nested_word core, ?_⟩
  intro a member
  rcases List.mem_map.1 member with ⟨x, inside, rfl⟩
  exact each x inside (spelling.called.plain_part core x inside)

/-- A text is nested if its arguments are. -/
theorem Spelling.nested (spelling : Spelling f letters core head words parts)
    (each : ∀ a ∈ words ++ parts.map text, Nested a) : Nested f.text := by
  have named : Nested (utf8 head.name) :=
    nested_of_plain fun b member => isPunctuation_of_isNameByte (head.isNameByte_of_mem_name member)
  have body := named.append (nested_parenthesized each)
  have lettered : Nested (letters.map (byte ·.char)) :=
    nested_of_plain fun b member =>
      isPunctuation_of_isNameByte (isNameByte_of_mem_letters letters b member)
  have colon : Nested [byte ':'] :=
    nested_of_plain fun b member => List.mem_singleton.1 member ▸ rfl
  rw [spelling.text_eq, WrappedText.joined]
  split
  · exact body
  · exact lettered.append (colon.append body)

theorem Spelling.inj (first : Spelling f letters core head words parts)
    (second : Spelling g letters' core' head' words' parts')
    (each : ∀ a ∈ words ++ parts.map text, Nested a)
    (each' : ∀ a ∈ words' ++ parts'.map text, Nested a) (same : f.text = g.text) :
    letters = letters' ∧ head = head' ∧ words ++ parts.map text = words' ++ parts'.map text := by
  rw [first.text_eq, second.text_eq] at same
  rcases joined_inj (isNameByte_of_mem_letters letters) (isNameByte_of_mem_letters letters')
    (fun b member => head.isNameByte_of_mem_name member)
    (fun b member => head'.isNameByte_of_mem_name member)
    (fun b opens => eq_of_head?_parenthesized opens)
    (fun b opens => eq_of_head?_parenthesized opens) same with ⟨lettered, body⟩
  rcases name_inj body with ⟨named, args⟩
  refine ⟨?_, named, parenthesized_inj each each' args⟩
  exact List.map_injective_iff.2 (fun _ _ => Letter.byte_inj) lettered

end Cores

/-- The text of a fragment is nested if its keys are written without punctuation. -/
theorem nested_text {f : Fragment} (plain : f.Plain) : Nested f.text := by
  induction size : f.text.length using Nat.strong_induction_on generalizing f with
  | _ n ih =>
    rcases exists_spelling f with ⟨letters, core, head, words, parts, spelling⟩
    apply spelling.nested
    apply spelling.nested_args plain
    intro x member plain
    exact ih _ (size ▸ spelling.length_part_lt member) plain rfl

/-- Two fragments with the same canonical text are the same up to keys that are written alike. -/
theorem nominal_eq_of_text_eq {f g : Fragment} (plain : f.Plain) (plain' : g.Plain)
    (same : f.text = g.text) : f.nominal = g.nominal := by
  induction size : f.text.length using Nat.strong_induction_on generalizing f g with
  | _ n ih =>
    rcases exists_spelling f with ⟨letters, core, head, words, parts, first⟩
    rcases exists_spelling g with ⟨letters', core', head', words', parts', second⟩
    rcases first.inj second (first.nested_args plain fun _ _ => nested_text)
      (second.nested_args plain' fun _ _ => nested_text) same with ⟨rfl, named, args⟩
    have cores : core.nominal = core'.nominal := by
      apply first.called.nominal_eq second.called named args
      intro x member y member' texts
      exact ih _ (size ▸ first.length_part_lt member)
        (first.called.plain_part (first.plain_core plain) x member)
        (second.called.plain_part (second.plain_core plain') y member') texts rfl
    rw [first.whole, second.whole, nominal_foldr_around, nominal_foldr_around, cores]

/-! ## Facts of texts -/

theorem nominal_eq_renamed (f : Fragment) : f.nominal = f.renamed Key.nominal := by
  induction f with
  | leaf l => cases l <;> rfl
  | wrap w x ih => rw [nominal, renamed, ih]
  | pair op x y ihx ihy => rw [nominal, renamed, ihx, ihy]
  | andor x y z ihx ihy ihz => rw [nominal, renamed, ihx, ihy, ihz]
  | thresh k subs ih =>
    rw [nominal, nominals_eq_map, renamed_thresh, List.map_congr_left ih]

/-- What keys there are has no bearing on the facts. -/
theorem facts?_nominal_iff {f : Fragment} {facts : Facts Int64} :
    f.nominal.facts? = .ok facts ↔ f.facts? = .ok facts := by
  rw [nominal_eq_renamed]
  exact facts?_renamed_iff

/-- Fragments with the same canonical text have the same facts. -/
theorem facts?_of_text_eq {f g : Fragment} {facts : Facts Int64} (plain : f.Plain) (plain' : g.Plain)
    (same : f.text = g.text) (typed : f.facts? = .ok facts) : g.facts? = .ok facts := by
  rw [← facts?_nominal_iff, ← nominal_eq_of_text_eq plain plain' same, facts?_nominal_iff]
  exact typed

end Fragment

end LockScript
