import LockScript.Proofs.Fragment.Legible

/-!
The text of a fragment reads as the fragment.

The canonical text of a fragment is a run of letters before the text of a core that no letter stands
for (`hasCore`). The core is written with a name and arguments, from which the reader builds it
again (`Called`), and the letters then put around it what they stand for (`Lettered`). Where an
argument stands matters for errors only, so arguments are compared as `Item`s, without their places.

The reader is followed with the text that comes after quantified over, since an argument ends at the
punctuation that follows it (`exists_readOne`).
-/

namespace LockScript

/-! ## Names -/

namespace Head

theorem mem_all (h : Head) : h ∈ all := by
  cases h with
  | hashLock f => cases f <;> decide
  | pair op => cases op <;> decide
  | letter l =>
    cases l with
    | wrapper w => cases w <;> decide
    | _ => decide
  | _ => decide

/-- A name is found as it is written. -/
theorem ofName?_name (h : Head) : ofName? (utf8 h.name) = some h := by
  have all : ∀ h ∈ all, ofName? (utf8 h.name) = some h := by decide +kernel
  exact all h h.mem_all

theorem name_ne_nil (h : Head) : utf8 h.name ≠ [] := by
  have all : ∀ h ∈ all, utf8 h.name ≠ [] := by decide +kernel
  exact all h h.mem_all

theorem isNameByte_of_mem_name (h : Head) {b : UInt8} (member : b ∈ utf8 h.name) :
    Fragment.isNameByte b = true := by
  have all : ∀ h ∈ all, (utf8 h.name).all Fragment.isNameByte = true := by decide +kernel
  exact List.all_eq_true.1 (all h h.mem_all) b member

end Head

theorem Letter.isNameByte_byte (l : Letter) : Fragment.isNameByte (byte l.char) = true := by
  cases l with
  | wrapper w => cases w <;> decide
  | _ => decide

/-! ## Arguments without their places -/

/-- An argument as it is written, wherever it stands. -/
inductive Item where
  | word (text : Bytes)
  | fragment (m : Checked)

namespace Item

/-- The kind of an item. -/
def kind : Item → ArgKind
  | .word _ => .word
  | .fragment _ => .fragment

/-- How an item is written. -/
def text : Item → Bytes
  | .word text => text
  | .fragment m => m.text

/-- An item that can be read within the levels: a word without punctuation, or a legible fragment
that is not too deep. -/
def Fits (s : Settings) (levels : Nat) : Item → Prop
  | .word text => ∀ b ∈ text, Expression.isPunctuation b = false
  | .fragment m => m.Legible s ∧ m.fragment.depth ≤ levels

end Item

/-- The argument without its place. -/
def Arg.item : Arg → Item
  | .word text _ => .word text
  | .fragment m => .fragment m

theorem Arg.item_eq_word {a : Arg} {text : Bytes} (same : a.item = .word text) :
    ∃ offset, a = .word text offset := by
  cases a with
  | word t offset =>
    cases same
    exact ⟨offset, rfl⟩
  | fragment m => cases same

/-- Fragments have no places to leave out. -/
theorem Arg.eq_fragments (ms : List Checked) {args : List Arg}
    (same : args.map Arg.item = ms.map .fragment) : args = ms.map .fragment := by
  induction ms generalizing args with
  | nil => exact List.map_eq_nil_iff.1 same
  | cons m ms ih =>
    obtain ⟨arg, rest, rfl, first, others⟩ := List.map_eq_cons_iff.1 same
    rw [ih others, List.map_cons]
    cases arg with
    | word t offset => cases first
    | fragment m =>
      cases first
      rfl

/-- The items are of the kinds that a name takes from argument `index` on. -/
def Shape.Takes (shape : Shape) : (index : Nat) → List Item → Prop
  | _, [] => True
  | index, item :: rest => shape.kind? index = some item.kind ∧ shape.Takes (index + 1) rest

/-- Beyond the fixed arguments any number of items of the last kind is taken. -/
theorem Shape.takes_rest {shape : Shape} {kind : ArgKind} (rest : shape.rest = some kind)
    {index : Nat} (beyond : shape.fixed.length ≤ index) {items : List Item}
    (kinds : ∀ item ∈ items, item.kind = kind) : shape.Takes index items := by
  induction items generalizing index with
  | nil => trivial
  | cons item items ih =>
    obtain ⟨first, others⟩ := List.forall_mem_cons.1 kinds
    refine ⟨?_, ih (Nat.le_succ_of_le beyond) others⟩
    rw [Shape.kind?, List.getElem?_eq_none beyond, first]
    exact rest

/-! ## Reading what is written -/

namespace Fragment

theorem isNameByte_of_isPunctuation {b : UInt8} (punctuation : Expression.isPunctuation b = true) :
    isNameByte b = false ∧ b ≠ byte ':' := by
  have among : b = byte '(' ∨ b = byte ',' ∨ b = byte ')' := by
    simpa [Expression.isPunctuation, or_assoc] using punctuation
  rcases among with rfl | rfl | rfl
  · decide
  · decide
  · decide

theorem isPunctuation_of_isNameByte {b : UInt8} (named : isNameByte b = true) :
    Expression.isPunctuation b = false := by
  rw [← Bool.not_eq_true]
  intro punctuation
  rw [(isNameByte_of_isPunctuation punctuation).1] at named
  cases named

/-- Letters and a name are read up to the punctuation after them. -/
theorem exists_readOpening {letters name tail : Bytes}
    (lettered : ∀ b ∈ letters, isNameByte b = true) (named : ∀ b ∈ name, isNameByte b = true)
    (some : name ≠ []) (ends : ∀ b, tail.head? = .some b → Expression.isPunctuation b = true)
    (offset : Nat) : ∃ nameOffset offset',
      readOpening ⟨offset, WrappedText.joined ⟨letters, name ++ tail⟩⟩
        = .ok (⟨letters, name, nameOffset⟩, ⟨offset', tail⟩) := by
  have inName : ∀ b ∈ name, (!isNameByte b) = false := fun b member => by rw [named b member]; rfl
  have inLetters : ∀ b ∈ letters, (!isNameByte b) = false := fun b member => by
    rw [lettered b member]; rfl
  have afterName : ∀ b, tail.head? = .some b → (!isNameByte b) = true := fun b first => by
    rw [(isNameByte_of_isPunctuation (ends b first)).1]; rfl
  have noColon : tail.head? ≠ .some (byte ':') := fun first =>
    (isNameByte_of_isPunctuation (ends _ first)).2 rfl
  by_cases none : letters = []
  · subst none
    refine ⟨offset + name.length - name.length, offset + name.length, ?_⟩
    rw [WrappedText.joined, if_pos rfl, readOpening]
    simp only [upTo_word offset inName afterName, Cursor.peek?, if_neg noColon]
    exact if_neg some
  · refine ⟨offset + letters.length + 1 + name.length - name.length,
      offset + letters.length + 1 + name.length, ?_⟩
    have colon : ∀ b, (byte ':' :: (name ++ tail)).head? = .some b → (!isNameByte b) = true := by
      rintro b ⟨⟩
      decide
    rw [WrappedText.joined, if_neg none, readOpening]
    simp only [upTo_word offset inLetters colon, Cursor.peek?, Cursor.next, List.head?_cons,
      upTo_word (offset + letters.length + 1) inName afterName, if_neg noColon, if_neg none]
    exact if_neg some

/-- What may follow a fragment or word within arguments. -/
def IsSeparator (b : UInt8) : Prop := b = byte ',' ∨ b = byte ')'

theorem isPunctuation_of_isSeparator {b : UInt8} (separator : IsSeparator b) :
    Expression.isPunctuation b = true := by
  rcases separator with rfl | rfl
  · decide
  · decide

theorem head?_ne_parenthesis {rest : Bytes} (ends : ∀ b, rest.head? = some b → IsSeparator b) :
    rest.head? ≠ some (byte '(') := by
  intro first
  rcases ends _ first with same | same
  · cases same
  · cases same

theorem readWord_word {text : Bytes} (plain : ∀ b ∈ text, Expression.isPunctuation b = false)
    {b : UInt8} (separator : IsSeparator b) (offset : Nat) (rest : Bytes) :
    readWord ⟨offset, text ++ b :: rest⟩
      = .ok (.word text offset, ⟨offset + text.length, b :: rest⟩) := by
  have ends : ∀ c, (b :: rest).head? = some c → Expression.isPunctuation c = true := by
    rintro c ⟨⟩
    exact isPunctuation_of_isSeparator separator
  have other : b ≠ byte '(' := by
    rcases separator with rfl | rfl
    · decide
    · decide
  simp only [readWord, upTo_word offset plain ends, Cursor.peek?, List.head?_cons, if_neg other]

section Arguments

variable {readOne : ArgKind → Cursor → Except Error (Arg × Cursor)} {name : Bytes} {shape : Shape}
  {kind : ArgKind} {bound index : Nat} {c : Cursor} {arg : Arg} {offset : Nat} {rest : Bytes}

theorem readArgs_last (takes : shape.kind? index = some kind)
    (read : readOne kind c = .ok (arg, ⟨offset, byte ')' :: rest⟩)) :
    readArgs readOne name shape (bound + 1) index c = .ok ([arg], ⟨offset + 1, rest⟩) := by
  rw [readArgs, takes]
  exact bind_eq_ok_iff.2 ⟨_, read, if_pos rfl⟩

theorem readArgs_more {args : List Arg} {last : Cursor} (takes : shape.kind? index = some kind)
    (read : readOne kind c = .ok (arg, ⟨offset, byte ',' :: rest⟩))
    (others : readArgs readOne name shape bound (index + 1) ⟨offset + 1, rest⟩ = .ok (args, last)) :
    readArgs readOne name shape (bound + 1) index c = .ok (arg :: args, last) := by
  rw [readArgs, takes]
  refine bind_eq_ok_iff.2 ⟨_, read, ?_⟩
  refine (if_neg (by decide)).trans ((if_pos rfl).trans ?_)
  exact bind_eq_ok_iff.2 ⟨_, others, rfl⟩

/-- A list of items is read up to its closing parenthesis if each item is read up to the separator
after it. -/
theorem exists_readArgs {items : List Item} (some : items ≠ [])
    (each : ∀ item ∈ items, ∀ offset b rest, IsSeparator b → ∃ arg offset',
      readOne item.kind ⟨offset, item.text ++ b :: rest⟩ = .ok (arg, ⟨offset', b :: rest⟩) ∧
        arg.item = item)
    (takes : shape.Takes index items) (room : items.length ≤ bound) (name : Bytes) (offset : Nat)
    (rest : Bytes) : ∃ args offset', readArgs readOne name shape bound index
        ⟨offset, joinWith [byte ','] (items.map Item.text) ++ byte ')' :: rest⟩
          = .ok (args, ⟨offset', rest⟩) ∧ args.map Arg.item = items := by
  induction items generalizing bound index offset with
  | nil => exact (some rfl).elim
  | cons item others ih =>
    obtain ⟨bound, rfl⟩ : ∃ n, bound = n + 1 := ⟨bound - 1, by simp at room; omega⟩
    obtain ⟨kind, later⟩ := takes
    cases others with
    | nil =>
      obtain ⟨arg, offset', read, same⟩ :=
        each item List.mem_cons_self offset (byte ')') rest (.inr rfl)
      exact ⟨[arg], offset' + 1, readArgs_last kind read, by rw [List.map_singleton, same]⟩
    | cons next others =>
      obtain ⟨arg, offset', read, same⟩ := each item List.mem_cons_self offset (byte ',')
        (joinWith [byte ','] ((next :: others).map Item.text) ++ byte ')' :: rest) (.inl rfl)
      obtain ⟨args, last, readOthers, sames⟩ := ih (List.cons_ne_nil _ _)
        (fun item member => each item (List.mem_cons_of_mem _ member)) later
        (Nat.le_of_succ_le_succ room) (offset' + 1)
      refine ⟨arg :: args, last, ?_, by rw [List.map_cons, same, sames]⟩
      simp only [List.map_cons, joinWith_cons_cons, List.append_assoc, List.singleton_append]
      exact readArgs_more kind read readOthers

end Arguments

/-! ## Names and arguments of a core -/

/-- Items in parentheses after a name, if there are any. -/
def argsText : List Item → Bytes
  | [] => []
  | items => byte '(' :: (joinWith [byte ','] (items.map Item.text) ++ [byte ')'])

/-- A fragment without letters is written with this name and these items, which can be read and
of which it is built. -/
structure Called (s : Settings) (m : Checked) (head : Head) (items : List Item) : Prop where
  written : m.fragment.wrappedText = ⟨[], utf8 head.name ++ argsText items⟩
  takes : head.shape.Takes 0 items
  fits : ∀ item ∈ items, ∀ levels, m.fragment.depth ≤ levels + 1 → item.Fits s levels
  builds : ∀ name offset args, args.map Arg.item = items → build s head name offset args = .ok m

variable {s : Settings} {m : Checked}

section Words

theorem lockTime_ofNat (lock : UInt32) (place : Nat) :
    Arg.lockTime (Decimal.ofNat lock.toNat) place = .ok lock := by
  rw [Arg.lockTime, Decimal.below?_ofNat lock.toNat_lt]
  simp

theorem threshold_ofInt {k : Int} (least : 0 ≤ k) (small : k < 2 ^ 31) (place : Nat) :
    Arg.threshold (Decimal.ofInt k) place = .ok k := by
  have natural : Decimal.ofInt k = Decimal.ofNat k.natAbs := if_neg (Int.not_lt.2 least)
  have bound : k.natAbs < 2 ^ 31 := by omega
  rw [Arg.threshold, natural, Decimal.below?_ofNat bound]
  exact congrArg Except.ok (Int.natAbs_of_nonneg least)

theorem digest_encode {width : Nat} (image : Digest width) (place : Nat) :
    Arg.digest width (Hex.encode image.bytes) place = .ok image := by
  rw [Arg.digest, Hex.decode_encode]
  simp

theorem keyHash_encode (hash : Digest 20) (place : Nat) :
    Arg.keyHash s (Hex.encode hash.bytes) place = .ok hash := by
  rw [Arg.keyHash, digest_encode]

theorem key_text {key : Key} (legible : key.Legible s.readKey) (place : Nat) :
    Arg.key s key.text place = .ok key := by
  rw [Arg.key, legible.found]

theorem keys_texts {keys : List Key} (legible : ∀ key ∈ keys, key.Legible s.readKey)
    {args : List Arg} (same : args.map Arg.item = keys.map fun key => .word key.text) :
    Arg.keys s args = .ok keys := by
  induction keys generalizing args with
  | nil =>
    obtain rfl := List.map_eq_nil_iff.1 same
    rfl
  | cons key keys ih =>
    obtain ⟨arg, rest, rfl, first, others⟩ := List.map_eq_cons_iff.1 same
    obtain ⟨place, rfl⟩ := Arg.item_eq_word first
    obtain ⟨own, later⟩ := List.forall_mem_cons.1 legible
    exact bind_eq_ok_iff.2 ⟨key, key_text own place, bind_eq_ok_iff.2 ⟨keys, ih later others, rfl⟩⟩

theorem fragments_map (ms : List Checked) : Arg.fragments (ms.map .fragment) = ms := by
  induction ms with
  | nil => rfl
  | cons m ms ih => rw [List.map_cons, Arg.fragments, ih]

theorem isPunctuation_of_mem_ofNat {n : Nat} : ∀ b ∈ Decimal.ofNat n,
    Expression.isPunctuation b = false := fun _ member =>
  isPunctuation_of_isDigit (Decimal.isDigit_of_mem_ofNat member)

theorem isPunctuation_of_mem_ofInt {k : Int} (least : 0 ≤ k) : ∀ b ∈ Decimal.ofInt k,
    Expression.isPunctuation b = false := by
  rw [Decimal.ofInt, if_neg (Int.not_lt.2 least)]
  exact isPunctuation_of_mem_ofNat

end Words

theorem eq_of_isZero {f : Fragment} (zero : f.isZero = true) : f = .leaf .zero := by
  unfold isZero at zero
  split at zero
  · rfl
  · cases zero

theorem eq_of_isOne {f : Fragment} (one : f.isOne = true) : f = .leaf .one := by
  unfold isOne at one
  split at one
  · rfl
  · cases one

theorem made_of_leaf {l : Leaf} (legible : m.Legible s) (same : m.fragment = .leaf l) :
    Checked.leaf s.limit l = .ok m := by
  have shallow := legible.shallow
  rw [same] at shallow
  exact Checked.leaf_eq_ok_iff.2 ⟨shallow, same⟩

/-- A leaf with one word for an argument. -/
theorem called_word {l : Leaf} {head : Head} {text : Bytes} (same : m.fragment = .leaf l)
    (written : l.text = call (utf8 head.name) [text]) (takes : head.shape.kind? 0 = some .word)
    (plain : ∀ b ∈ text, Expression.isPunctuation b = false)
    (builds : ∀ name offset place, build s head name offset [.word text place] = .ok m) :
    Called s m head [.word text] := by
  refine ⟨?_, ⟨takes, trivial⟩, ?_, ?_⟩
  · rw [same, wrappedText, written]
    rfl
  · intro item member levels _
    obtain rfl := List.mem_singleton.1 member
    exact plain
  · intro name offset args sames
    obtain ⟨arg, rest, rfl, first, others⟩ := List.map_eq_cons_iff.1 sames
    obtain ⟨place, rfl⟩ := Arg.item_eq_word first
    obtain rfl := List.map_eq_nil_iff.1 others
    exact builds name offset place

/-- A leaf without arguments. -/
theorem called_bare {l : Leaf} {head : Head} (same : m.fragment = .leaf l)
    (written : l.text = utf8 head.name)
    (builds : ∀ name offset, build s head name offset [] = .ok m) : Called s m head [] := by
  refine ⟨?_, trivial, ?_, ?_⟩
  · rw [same, wrappedText, written, argsText, List.append_nil]
  · intro item member
    cases member
  · intro name offset args sames
    obtain rfl := List.map_eq_nil_iff.1 sames
    exact builds name offset

theorem called_multi {k : Int} {keys : List Key} (legible : m.Legible s)
    (same : m.fragment = .leaf (.multi k keys)) :
    Called s m .multi (.word (Decimal.ofInt k) :: keys.map fun key => .word key.text) := by
  have typed := m.typed
  have own := legible.legible
  rw [same] at typed own
  obtain ⟨least, most⟩ := Facts.checkThreshold_iff.1 (facts?_leaf_iff.1 typed).1
  obtain ⟨small, few, each⟩ := own.own
  refine ⟨?_, ?_, ?_, ?_⟩
  · rw [same, wrappedText]
    simp [call, argsText, Leaf.text, Head.name, Item.text, Function.comp_def]
  · refine ⟨rfl, Shape.takes_rest rfl (by decide) fun item member => ?_⟩
    obtain ⟨key, -, rfl⟩ := List.mem_map.1 member
    rfl
  · intro item member levels _
    rcases List.mem_cons.1 member with rfl | member
    · exact isPunctuation_of_mem_ofInt (by omega)
    · obtain ⟨key, inside, rfl⟩ := List.mem_map.1 member
      exact (each key inside).plain
  · intro name offset args sames
    obtain ⟨arg, rest, rfl, first, others⟩ := List.map_eq_cons_iff.1 sames
    obtain ⟨place, rfl⟩ := Arg.item_eq_word first
    have length := congrArg List.length others
    simp only [List.length_map] at length
    obtain ⟨word, words, rfl⟩ : ∃ word words, rest = word :: words := by
      cases rest with
      | nil =>
        simp at length
        omega
      | cons word words => exact ⟨word, words, rfl⟩
    rw [List.length_cons] at length
    refine (if_neg (by omega)).trans ?_
    refine bind_eq_ok_iff.2 ⟨k, threshold_ofInt (by omega) small place, ?_⟩
    refine bind_eq_ok_iff.2 ⟨keys, keys_texts each others, ?_⟩
    exact located_eq_ok_iff.2 (made_of_leaf legible same)

theorem exists_called_leaf {l : Leaf} (legible : m.Legible s) (same : m.fragment = .leaf l) :
    ∃ head items, Called s m head items := by
  have made := made_of_leaf legible same
  have own : l.Legible s.readKey := Legible.own (same ▸ legible.legible)
  cases l with
  | zero =>
    refine ⟨.zero, [], called_bare same rfl fun name offset => ?_⟩
    exact located_eq_ok_iff.2 made
  | one =>
    refine ⟨.one, [], called_bare same rfl fun name offset => ?_⟩
    exact located_eq_ok_iff.2 made
  | pk key =>
    refine ⟨.pk, _, called_word same rfl rfl own.plain fun name offset place => ?_⟩
    exact bind_eq_ok_iff.2 ⟨key, key_text own place, located_eq_ok_iff.2 made⟩
  | pkHash hash =>
    refine ⟨.pkHash, _, called_word same rfl rfl (fun b => isPunctuation_of_mem_hex)
      fun name offset place => ?_⟩
    exact bind_eq_ok_iff.2 ⟨hash, keyHash_encode hash place, located_eq_ok_iff.2 made⟩
  | after lock =>
    refine ⟨.after, _, called_word same rfl rfl isPunctuation_of_mem_ofNat
      fun name offset place => ?_⟩
    exact bind_eq_ok_iff.2 ⟨lock, lockTime_ofNat lock place, located_eq_ok_iff.2 made⟩
  | older lock =>
    refine ⟨.older, _, called_word same rfl rfl isPunctuation_of_mem_ofNat
      fun name offset place => ?_⟩
    exact bind_eq_ok_iff.2 ⟨lock, lockTime_ofNat lock place, located_eq_ok_iff.2 made⟩
  | hashLock f image =>
    refine ⟨.hashLock f, _, called_word same rfl rfl (fun b => isPunctuation_of_mem_hex)
      fun name offset place => ?_⟩
    exact bind_eq_ok_iff.2 ⟨image, digest_encode image place, located_eq_ok_iff.2 made⟩
  | multi k keys => exact ⟨.multi, _, called_multi legible same⟩

theorem fits_part {x : Checked} (legible : x.Legible s) (child : x.fragment ∈ m.fragment.children)
    {levels : Nat} (deep : m.fragment.depth ≤ levels + 1) : (Item.fragment x).Fits s levels := by
  have deeper := depth_lt_of_child child
  exact ⟨legible, by omega⟩

section Compositions

variable {op : Combinator} {x y z : Checked}

theorem called_pair (legible : m.Legible s) (same : m.fragment = .pair op x.fragment y.fragment)
    (first : x.Legible s) (second : y.Legible s) (notThenOne : ¬ (op = .andV ∧ y.fragment.isOne))
    (notZeroOr : ¬ (op = .orI ∧ x.fragment.isZero))
    (notOrZero : ¬ (op = .orI ∧ y.fragment.isZero)) :
    Called s m (.pair op) [.fragment x, .fragment y] := by
  have shallow := legible.shallow
  rw [same] at shallow
  refine ⟨?_, ⟨rfl, rfl, trivial⟩, ?_, ?_⟩
  · rw [same, wrappedText, if_neg notThenOne, if_neg notZeroOr, if_neg notOrZero]
    rfl
  · intro item member levels deep
    rcases (by simpa using member : item = _ ∨ item = _) with rfl | rfl
    · exact fits_part first (by simp [same, children]) deep
    · exact fits_part second (by simp [same, children]) deep
  · intro name offset args sames
    obtain rfl := Arg.eq_fragments [x, y] sames
    refine (if_neg notThenOne).trans ?_
    exact located_eq_ok_iff.2 (Checked.pair_eq_ok_iff.2 ⟨shallow, same⟩)

theorem called_andN (legible : m.Legible s)
    (same : m.fragment = .andor x.fragment y.fragment z.fragment) (first : x.Legible s)
    (second : y.Legible s) (third : z.Legible s) (zero : z.fragment.isZero = true) :
    Called s m .andN [.fragment x, .fragment y] := by
  have shallow := legible.shallow
  rw [same] at shallow
  refine ⟨?_, ⟨rfl, rfl, trivial⟩, ?_, ?_⟩
  · rw [same, wrappedText, if_pos zero]
    rfl
  · intro item member levels deep
    rcases (by simpa using member : item = _ ∨ item = _) with rfl | rfl
    · exact fits_part first (by simp [same, children]) deep
    · exact fits_part second (by simp [same, children]) deep
  · intro name offset args sames
    obtain rfl := Arg.eq_fragments [x, y] sames
    have added := made_of_leaf third (eq_of_isZero zero)
    refine bind_eq_ok_iff.2 ⟨z, located_eq_ok_iff.2 added, ?_⟩
    exact located_eq_ok_iff.2 (Checked.andor_eq_ok_iff.2 ⟨shallow, same⟩)

theorem called_andor (legible : m.Legible s)
    (same : m.fragment = .andor x.fragment y.fragment z.fragment) (first : x.Legible s)
    (second : y.Legible s) (third : z.Legible s) (notZero : ¬ z.fragment.isZero = true) :
    Called s m .andor [.fragment x, .fragment y, .fragment z] := by
  have shallow := legible.shallow
  rw [same] at shallow
  refine ⟨?_, ⟨rfl, rfl, rfl, trivial⟩, ?_, ?_⟩
  · rw [same, wrappedText, if_neg notZero]
    rfl
  · intro item member levels deep
    rcases (by simpa using member : item = _ ∨ item = _ ∨ item = _) with rfl | rfl | rfl
    · exact fits_part first (by simp [same, children]) deep
    · exact fits_part second (by simp [same, children]) deep
    · exact fits_part third (by simp [same, children]) deep
  · intro name offset args sames
    obtain rfl := Arg.eq_fragments [x, y, z] sames
    exact located_eq_ok_iff.2 (Checked.andor_eq_ok_iff.2 ⟨shallow, same⟩)

theorem textsOf_map (subs : List Checked) :
    textsOf (subs.map Checked.fragment) = subs.map Checked.text := by
  induction subs with
  | nil => rfl
  | cons x rest ih =>
    rw [List.map_cons, textsOf, ih]
    rfl

theorem called_thresh {k : Int} {subs : List Checked} (legible : m.Legible s)
    (same : m.fragment = .thresh k (subs.map Checked.fragment)) (parts : ∀ x ∈ subs, x.Legible s) :
    Called s m .thresh (.word (Decimal.ofInt k) :: subs.map .fragment) := by
  have typed := m.typed
  have own := legible.legible
  have shallow := legible.shallow
  rw [same] at typed own shallow
  obtain ⟨fs, each, checked, -⟩ := facts?_thresh_iff.1 typed
  obtain ⟨least, most⟩ := Facts.checkThreshold_iff.1 checked
  have small : k < 2 ^ 31 := by
    cases own with
    | thresh small _ => exact small
  refine ⟨?_, ?_, ?_, ?_⟩
  · rw [same, wrappedText, textsOf_map]
    simp [call, argsText, Head.name, Item.text, Function.comp_def]
  · refine ⟨rfl, Shape.takes_rest rfl (by decide) fun item member => ?_⟩
    obtain ⟨x, -, rfl⟩ := List.mem_map.1 member
    rfl
  · intro item member levels deep
    rcases List.mem_cons.1 member with rfl | member
    · exact isPunctuation_of_mem_ofInt (by omega)
    · obtain ⟨x, inside, rfl⟩ := List.mem_map.1 member
      refine fits_part (parts x inside) ?_ deep
      rw [same, children]
      exact List.mem_map_of_mem inside
  · intro name offset args sames
    obtain ⟨arg, rest, rfl, first, others⟩ := List.map_eq_cons_iff.1 sames
    obtain ⟨place, rfl⟩ := Arg.item_eq_word first
    obtain rfl := Arg.eq_fragments subs others
    cases subs with
    | nil =>
      cases each
      rw [List.length_nil] at most
      omega
    | cons sub subs =>
      refine bind_eq_ok_iff.2 ⟨k, threshold_ofInt (by omega) small place, ?_⟩
      rw [← List.map_cons, fragments_map]
      exact located_eq_ok_iff.2 (Checked.thresh_eq_ok_iff.2 ⟨shallow, same⟩)

end Compositions

/-! ## Letters around a core -/

/-- A fragment is written with these letters before the text of its core, and they make it of the
core. -/
structure Lettered (s : Settings) (m core : Checked) (letters : Bytes) : Prop where
  written : m.fragment.wrappedText = ⟨letters, core.fragment.wrappedText.body⟩
  named : ∀ b ∈ letters, isNameByte b = true
  depth_le : core.fragment.depth ≤ m.fragment.depth
  applies : ∀ offset index, applyLetters s.limit offset index letters core = .ok m

/-- A fragment that is a core with letters around it. -/
def HasCore (s : Settings) (m : Checked) : Prop :=
  ∃ core letters head items, Lettered s m core letters ∧ Called s core head items

theorem Called.hasCore {head : Head} {items : List Item} (called : Called s m head items) :
    HasCore s m := by
  refine ⟨m, [], head, items, ⟨?_, ?_, Nat.le_refl _, ?_⟩, called⟩
  · rw [called.written]
  · intro b member
    cases member
  · intro offset index
    rfl

/-- One more letter around a core. -/
theorem HasCore.letter {x : Checked} (hasCore : HasCore s x) (l : Letter)
    (written : m.fragment.wrappedText = x.fragment.wrappedText.wrap l.char)
    (child : x.fragment ∈ m.fragment.children)
    (applies : ∀ letterOffset offset, applyLetter s.limit l letterOffset offset x = .ok m) :
    HasCore s m := by
  obtain ⟨core, letters, head, items, lettered, called⟩ := hasCore
  refine ⟨core, byte l.char :: letters, head, items, ⟨?_, ?_, ?_, ?_⟩, called⟩
  · rw [written, lettered.written]
    rfl
  · exact List.forall_mem_cons.2 ⟨l.isNameByte_byte, lettered.named⟩
  · exact lettered.depth_le.trans (Nat.le_of_lt (depth_lt_of_child child))
  · intro offset index
    rw [applyLetters]
    refine bind_eq_ok_iff.2 ⟨x, lettered.applies offset (index + 1), ?_⟩
    rw [Letter.ofByte?_byte]
    exact applies _ _

theorem hasCore_pair {op : Combinator} {x y : Checked} (legible : m.Legible s)
    (same : m.fragment = .pair op x.fragment y.fragment) (first : x.Legible s)
    (second : y.Legible s) (firstCore : HasCore s x) (secondCore : HasCore s y) : HasCore s m := by
  have shallow := legible.shallow
  rw [same] at shallow
  have made := Checked.pair_eq_ok_iff.2 ⟨shallow, same⟩
  have isFirst : x.fragment ∈ m.fragment.children := by simp [same, children]
  have isSecond : y.fragment ∈ m.fragment.children := by simp [same, children]
  by_cases thenOne : op = .andV ∧ y.fragment.isOne
  · have written : m.fragment.wrappedText = x.fragment.wrappedText.wrap 't' := by
      rw [same, wrappedText, if_pos thenOne]
    obtain ⟨rfl, one⟩ := thenOne
    have added := made_of_leaf second (eq_of_isOne one)
    refine firstCore.letter .thenOne written isFirst fun letterOffset offset => ?_
    exact bind_eq_ok_iff.2 ⟨y, located_eq_ok_iff.2 added, located_eq_ok_iff.2 made⟩
  by_cases zeroOr : op = .orI ∧ x.fragment.isZero
  · have written : m.fragment.wrappedText = y.fragment.wrappedText.wrap 'l' := by
      rw [same, wrappedText, if_neg thenOne, if_pos zeroOr]
    obtain ⟨rfl, zero⟩ := zeroOr
    have added := made_of_leaf first (eq_of_isZero zero)
    refine secondCore.letter .zeroOr written isSecond fun letterOffset offset => ?_
    exact bind_eq_ok_iff.2 ⟨x, located_eq_ok_iff.2 added, located_eq_ok_iff.2 made⟩
  by_cases orZero : op = .orI ∧ y.fragment.isZero
  · have written : m.fragment.wrappedText = x.fragment.wrappedText.wrap 'u' := by
      rw [same, wrappedText, if_neg thenOne, if_neg zeroOr, if_pos orZero]
    obtain ⟨rfl, zero⟩ := orZero
    have added := made_of_leaf second (eq_of_isZero zero)
    refine firstCore.letter .orZero written isFirst fun letterOffset offset => ?_
    exact bind_eq_ok_iff.2 ⟨y, located_eq_ok_iff.2 added, located_eq_ok_iff.2 made⟩
  exact (called_pair legible same first second thenOne zeroOr orZero).hasCore

/-- Every legible fragment is a core with letters around it. -/
theorem hasCore {f : Fragment} (legible : m.Legible s) (same : m.fragment = f) : HasCore s m := by
  induction f generalizing m with
  | leaf l =>
    obtain ⟨head, items, called⟩ := exists_called_leaf legible same
    exact called.hasCore
  | wrap w x ih =>
    have child : x ∈ m.fragment.children := by simp [same, children]
    obtain ⟨mx, rfl, hx⟩ := legible.exists_part child
    have shallow := legible.shallow
    rw [same] at shallow
    have made := Checked.wrap_eq_ok_iff.2 ⟨shallow, same⟩
    have written : m.fragment.wrappedText = mx.fragment.wrappedText.wrap w.letter := by
      rw [same, wrappedText]
    exact (ih hx rfl).letter (.wrapper w) written child fun letterOffset offset =>
      located_eq_ok_iff.2 made
  | pair op x y ihx ihy =>
    obtain ⟨mx, rfl, hx⟩ := legible.exists_part (x := x) (by simp [same, children])
    obtain ⟨my, rfl, hy⟩ := legible.exists_part (x := y) (by simp [same, children])
    exact hasCore_pair legible same hx hy (ihx hx rfl) (ihy hy rfl)
  | andor x y z _ _ _ =>
    obtain ⟨mx, rfl, hx⟩ := legible.exists_part (x := x) (by simp [same, children])
    obtain ⟨my, rfl, hy⟩ := legible.exists_part (x := y) (by simp [same, children])
    obtain ⟨mz, rfl, hz⟩ := legible.exists_part (x := z) (by simp [same, children])
    by_cases zero : mz.fragment.isZero = true
    · exact (called_andN legible same hx hy hz zero).hasCore
    · exact (called_andor legible same hx hy hz zero).hasCore
  | thresh k subs _ =>
    have each : ∀ x ∈ subs, ∃ mx : Checked, mx.fragment = x ∧ mx.Legible s := fun x member =>
      legible.exists_part (by simp [same, children, member])
    obtain ⟨ms, rfl, parts⟩ := exists_parts each
    exact (called_thresh legible same parts).hasCore

/-! ## Reading texts -/

theorem joined_append (letters body rest : Bytes) :
    WrappedText.joined ⟨letters, body⟩ ++ rest = WrappedText.joined ⟨letters, body ++ rest⟩ := by
  unfold WrappedText.joined
  split
  · rfl
  · simp

/-- There is a separator between each two texts. -/
theorem length_joinWith (separator : UInt8) (texts : List Bytes) :
    texts.length ≤ (joinWith [separator] texts).length + 1 := by
  induction texts with
  | nil => exact Nat.zero_le _
  | cons text rest ih =>
    cases rest with
    | nil => simp
    | cons next rest =>
      simp only [joinWith_cons_cons, List.length_append, List.length_cons] at ih ⊢
      omega

theorem exists_readArguments {levels : Nat} {head : Head} {items : List Item}
    (takes : head.shape.Takes 0 items)
    (each : ∀ item ∈ items, ∀ offset b rest, IsSeparator b → ∃ arg offset',
      readArg s levels item.kind ⟨offset, item.text ++ b :: rest⟩
        = .ok (arg, ⟨offset', b :: rest⟩) ∧ arg.item = item)
    {rest : Bytes} (ends : ∀ b, rest.head? = some b → IsSeparator b) (name : Bytes) (offset : Nat) :
    ∃ args offset', readArguments s levels name head.shape ⟨offset, argsText items ++ rest⟩
      = .ok (args, ⟨offset', rest⟩) ∧ args.map Arg.item = items := by
  cases items with
  | nil => exact ⟨[], offset, if_neg (head?_ne_parenthesis ends), rfl⟩
  | cons item others =>
    have room : (item :: others).length ≤ (argsText (item :: others) ++ rest).length + 1 := by
      have texts := length_joinWith (byte ',') ((item :: others).map Item.text)
      simp only [argsText, List.length_append, List.length_cons, List.length_map] at texts ⊢
      omega
    obtain ⟨args, offset', read, same⟩ :=
      exists_readArgs (List.cons_ne_nil _ _) each takes room name (offset + 1) rest
    refine ⟨args, offset', ?_, same⟩
    refine (if_pos rfl).trans ?_
    simpa only [argsText, Cursor.next, List.cons_append, List.append_assoc, List.nil_append]
      using read

theorem depth_pos (f : Fragment) : 0 < f.depth := by
  cases f <;> simp [depth]

/-- The text of a legible fragment is read as the fragment, up to a separator or the end. The
induction is on the levels of nesting: the arguments of the core are less deep than the fragment. -/
theorem exists_readOne {levels : Nat} (legible : m.Legible s) (deep : m.fragment.depth ≤ levels)
    {rest : Bytes} (ends : ∀ b, rest.head? = some b → IsSeparator b) (offset : Nat) :
    ∃ offset', readOne s levels ⟨offset, m.text ++ rest⟩ = .ok (m, ⟨offset', rest⟩) := by
  induction levels generalizing m rest offset with
  | zero =>
    have least := m.fragment.depth_pos
    omega
  | succ levels ih =>
    obtain ⟨core, letters, head, items, lettered, called⟩ := hasCore legible rfl
    have each : ∀ item ∈ items, ∀ offset b rest, IsSeparator b → ∃ arg offset',
        readArg s levels item.kind ⟨offset, item.text ++ b :: rest⟩
          = .ok (arg, ⟨offset', b :: rest⟩) ∧ arg.item = item := by
      intro item member offset b rest separator
      have fits := called.fits item member levels (lettered.depth_le.trans deep)
      cases item with
      | word text => exact ⟨_, _, readWord_word fits separator offset rest, rfl⟩
      | fragment x =>
        have follows : ∀ c, (b :: rest).head? = some c → IsSeparator c := by
          rintro c ⟨⟩
          exact separator
        obtain ⟨offset', read⟩ := ih fits.1 fits.2 follows offset
        exact ⟨.fragment x, offset', map_eq_ok_iff.2 ⟨_, read, rfl⟩, rfl⟩
    have tail : ∀ b, (argsText items ++ rest).head? = some b →
        Expression.isPunctuation b = true := by
      intro b first
      cases items with
      | nil => exact isPunctuation_of_isSeparator (ends b first)
      | cons item others =>
        cases first
        decide
    obtain ⟨nameOffset, after, opened⟩ := exists_readOpening lettered.named
      (fun b => head.isNameByte_of_mem_name) head.name_ne_nil tail offset
    obtain ⟨args, last, read, same⟩ :=
      exists_readArguments called.takes each ends (utf8 head.name) after
    have written : m.text ++ rest
        = WrappedText.joined ⟨letters, utf8 head.name ++ (argsText items ++ rest)⟩ := by
      rw [Checked.text, Fragment.text, lettered.written, called.written, joined_append,
        List.append_assoc]
    rw [written]
    exact ⟨last, readOne_eq_ok_iff.2 ⟨_, _, head, args, core, opened, head.ofName?_name, read,
      called.builds _ _ args same, lettered.applies offset 0⟩⟩

/-- The text of a legible fragment is read as the fragment. -/
theorem read_text (legible : m.Legible s) : read s m.text = .ok m := by
  have deep : m.fragment.depth ≤ s.limit.toNat := by
    have shallow := legible.shallow
    omega
  have ends : ∀ b, ([] : Bytes).head? = some b → IsSeparator b := by
    intro b first
    cases first
  obtain ⟨last, found⟩ := exists_readOne legible deep ends 0
  rw [List.append_nil] at found
  exact bind_eq_ok_iff.2 ⟨_, found, rfl⟩

/-! ## Every fragment there is -/

/-- The ways to come by a checked fragment: from text or an expression with one of the usual
readers of keys, or from a script, with points for keys in the script and points and names in
text. That the script is below 2 GiB, as it is where offsets are signed words of 32 bits, keeps its
thresholds among those that text can have. -/
inductive Obtained (s : Settings) (m : Checked) : Prop
  | read (standard : s.readKey.Standard) {text : Bytes} (found : Fragment.read s text = .ok m)
  | ofExpression (standard : s.readKey.Standard) {e : Expression}
    (found : Fragment.ofExpression s e = .ok m)
  | decode (readsText : s.readKey = Key.ofText) (readsPoints : s.decodeKey = Key.ofBytes)
    {script : Bytes} (short : script.length < 2 ^ 31) (found : Decoder.decode s script = .ok m)

/-- However a fragment was come by, its text is read as the same fragment with the same facts. -/
theorem read_undoes_text (obtained : Obtained s m) : read s m.text = .ok m := by
  apply read_text
  cases obtained with
  | read standard found => exact legible_of_read standard found
  | ofExpression standard found => exact legible_of_ofExpressionAt standard _ found
  | decode readsText readsPoints short found =>
    refine legible_of_decode (fun p => ?_) readsPoints short found
    rw [readsText]
    exact Key.legible_point (Key.ofText_text p)

/-- A text with letters for names, shorthands spelled out and a leading zero, none of which the
fragment keeps. -/
def wordyText : Bytes := utf8 "thresh(2,c(pk(A)),s(c(pk(B))),s(or_i(0,n(older(03)))))"

theorem read_undoes_text_wordy :
    ∃ m, read {} wordyText = .ok m ∧ m.text = utf8 "thresh(2,c:pk(A),sc:pk(B),sln:older(3))" ∧
      read {} m.text = .ok m := by
  have shortened : (read {} wordyText).toOption.map Checked.text
      = some (utf8 "thresh(2,c:pk(A),sc:pk(B),sln:older(3))") := by decide +kernel
  cases found : read {} wordyText with
  | error e =>
    rw [found] at shortened
    cases shortened
  | ok m =>
    rw [found] at shortened
    exact ⟨m, rfl, Option.some.inj shortened, read_undoes_text (.read .text found)⟩

end Fragment

end LockScript
