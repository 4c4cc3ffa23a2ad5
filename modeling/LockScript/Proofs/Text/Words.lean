import LockScript.Text.Cursor
import LockScript.Text.Decimal
import LockScript.Text.Hex
import LockScript.Text.Utf8
import LockScript.Expression.Reader
import Mathlib.Algebra.Group.Nat.Defs

/-!
Words between punctuation.

A word that holds no punctuation is read up to the punctuation after it. Numbers and digests are
written as such words, and read back from them; so is everything made of characters that are
letters, digits or underscores, as no byte of a longer character is punctuation.
-/

namespace LockScript

/-! ## Strings -/

/-- The bytes from a place on come after those that are listed already. -/
theorem toList_loop_eq (data : ByteArray) (i : Nat) (done : List UInt8) :
    ByteArray.toList.loop data i done = done.reverse ++ data.data.toList.drop i := by
  fun_induction ByteArray.toList.loop data i done with
  | case1 i done inside ih =>
    have inside : i < data.data.toList.length := inside
    have first : data.get! i = data.data.toList[i] := getElem!_pos data.data i inside
    rw [ih, List.reverse_cons, List.append_assoc, List.singleton_append,
      List.drop_eq_getElem_cons inside, first]
  | case2 i done outside =>
    have all : data.data.toList.drop i = [] := List.drop_eq_nil_of_le (Nat.le_of_not_lt outside)
    rw [all, List.append_nil]

/-- Strings with the same bytes are the same. -/
theorem utf8_inj {s t : String} : utf8 s = utf8 t ↔ s = t := by
  have bytes (s : String) : utf8 s = s.toByteArray.data.toList := toList_loop_eq s.toUTF8 0 []
  rw [bytes, bytes, Array.toList_inj, ← ByteArray.ext_iff, String.toByteArray_inj]

/-! ## Cutting at a byte -/

/-- Bytes of which none ends a word are taken together. -/
theorem splitBefore_word {stop : UInt8 → Bool} {word rest : Bytes}
    (inside : ∀ b ∈ word, stop b = false) (ends : ∀ b, rest.head? = some b → stop b = true) :
    splitBefore stop (word ++ rest) = (word, rest) := by
  induction word with
  | nil =>
    cases rest with
    | nil => rfl
    | cons b rest => rw [List.nil_append, splitBefore, if_pos (ends b rfl)]
  | cons b word ih =>
    have first := inside b List.mem_cons_self
    rw [List.cons_append, splitBefore, if_neg (by simp [first]),
      ih fun c member => inside c (List.mem_cons_of_mem _ member)]

theorem upTo_word {stop : UInt8 → Bool} {word rest : Bytes} (offset : Nat)
    (inside : ∀ b ∈ word, stop b = false) (ends : ∀ b, rest.head? = some b → stop b = true) :
    Cursor.upTo stop ⟨offset, word ++ rest⟩ = (word, ⟨offset + word.length, rest⟩) := by
  simp only [Cursor.upTo, splitBefore_word inside ends]

theorem splitBefore_eq_iff {stop : UInt8 → Bool} {text word rest : Bytes} :
    splitBefore stop text = (word, rest) ↔ text = word ++ rest ∧ (∀ b ∈ word, stop b = false) ∧
      ∀ b, rest.head? = some b → stop b = true := by
  constructor
  · intro cut
    induction text generalizing word with
    | nil =>
      cases cut
      exact ⟨rfl, by simp, by simp⟩
    | cons c text ih =>
      rw [splitBefore] at cut
      split at cut
      · next ends =>
        cases cut
        refine ⟨rfl, by simp, ?_⟩
        rintro b ⟨⟩
        exact ends
      · next inside =>
        obtain ⟨rfl, rfl⟩ := Prod.mk.inj cut
        obtain ⟨same, within, ends⟩ := ih rfl
        exact ⟨congrArg (c :: ·) same,
          List.forall_mem_cons.2 ⟨Bool.eq_false_iff.2 inside, within⟩, ends⟩
  · rintro ⟨rfl, inside, ends⟩
    exact splitBefore_word inside ends

theorem upTo_eq_iff {stop : UInt8 → Bool} {c after : Cursor} {word : Bytes} :
    c.upTo stop = (word, after) ↔ c.rest = word ++ after.rest ∧
      after.offset = c.offset + word.length ∧ (∀ b ∈ word, stop b = false) ∧
      ∀ b, after.peek? = some b → stop b = true := by
  obtain ⟨offset, rest⟩ := after
  unfold Cursor.upTo Cursor.peek?
  constructor
  · intro cut
    obtain ⟨same, place⟩ := Prod.mk.inj cut
    obtain ⟨place, others⟩ := Cursor.mk.inj place
    obtain ⟨whole, inside, ends⟩ := splitBefore_eq_iff.1 (Prod.ext same others)
    exact ⟨whole, by rw [← place, same], inside, ends⟩
  · rintro ⟨whole, rfl, inside, ends⟩
    rw [splitBefore_eq_iff.2 ⟨whole, inside, ends⟩]

/-- There is nothing to skip before a byte that is not to be skipped. -/
theorem skip_eq_self {p : UInt8 → Bool} {c : Cursor}
    (none : ∀ b, c.peek? = some b → p b = false) : c.skip p = c := by
  have stays : c.upTo (fun b => !p b) = ([], c) :=
    upTo_eq_iff.2 ⟨rfl, rfl, by simp, fun b first => by rw [none b first]; rfl⟩
  rw [Cursor.skip, stays]

/-! ## Numbers -/

namespace Decimal

theorem isDigit_byte {c : Char} (digit : c.isDigit = true) :
    isDigit (byte c) = true ∧ (byte c).toNat = c.toNat := by
  have range : 48 ≤ c.toNat ∧ c.toNat ≤ 57 := by
    simpa [Char.isDigit, UInt32.le_iff_toNat_le] using digit
  have size : (byte c).toNat = c.toNat := by
    rw [byte, Nat.toUInt8, UInt8.toNat_ofNat']
    omega
  refine ⟨?_, size⟩
  simp only [isDigit, Bool.and_eq_true, decide_eq_true_eq, UInt8.le_iff_toNat_le, size]
  simpa using range

theorem isDigit_of_mem_toDigits {n : Nat} {c : Char} (member : c ∈ Nat.toDigits 10 n) :
    c.isDigit = true :=
  Nat.isDigit_of_mem_toDigits (b := 10) (by decide) (by decide) member

theorem isDigit_of_mem_ofNat {n : Nat} {b : UInt8} (member : b ∈ ofNat n) : isDigit b = true := by
  obtain ⟨c, inside, rfl⟩ := List.mem_map.1 member
  exact (isDigit_byte (isDigit_of_mem_toDigits inside)).1

theorem valueFrom_cons (high : Nat) (b : UInt8) (rest : Bytes) :
    valueFrom high (b :: rest) = valueFrom (high * 10 + (b.toNat - 0x30)) rest := by
  rewrite [valueFrom.eq_def]
  dsimp only

/-- Digits have the value that they were written for. -/
theorem valueFrom_map_byte {cs : List Char} (digits : ∀ c ∈ cs, c.isDigit = true) (high : Nat) :
    valueFrom high (cs.map byte) = Nat.ofDigitChars 10 cs high := by
  induction cs generalizing high with
  | nil => rfl
  | cons c cs ih =>
    have size := (isDigit_byte (digits c List.mem_cons_self)).2
    have later := ih fun d member => digits d (List.mem_cons_of_mem _ member)
    rewrite [List.map_cons, valueFrom_cons, later, size, Nat.ofDigitChars_cons, Nat.mul_comm high]
    exact congrArg (Nat.ofDigitChars 10 cs) rfl

theorem value?_ofNat (n : Nat) : value? (ofNat n) = some n := by
  have digits : (ofNat n).all isDigit = true :=
    List.all_eq_true.2 fun b member => isDigit_of_mem_ofNat member
  have some : ofNat n ≠ [] := by
    simp [ofNat, Nat.toDigits_ne_nil]
  rw [value?, if_pos ⟨some, digits⟩, ofNat,
    valueFrom_map_byte fun c member => isDigit_of_mem_toDigits member,
    Nat.ofDigitChars_ten_toDigits]

/-- A number is read back if it is not too large. -/
theorem below?_ofNat {bits n : Nat} (small : n < 2 ^ bits) : below? bits (ofNat n) = some n := by
  rw [below?, value?_ofNat]
  exact if_pos (by rwa [Nat.one_shiftLeft])

theorem below?_lt {bits n : Nat} {text : Bytes} (read : below? bits text = some n) :
    n < 2 ^ bits := by
  unfold below? at read
  split at read
  · split at read
    · next small =>
      cases read
      rwa [Nat.one_shiftLeft] at small
    · cases read
  · cases read

end Decimal

/-! ## Bytes without punctuation -/

open Expression (isPunctuation)

theorem isPunctuation_of_isDigit {b : UInt8} (digit : Decimal.isDigit b = true) :
    isPunctuation b = false := by
  have all : ∀ m : Fin 256, Decimal.isDigit (UInt8.ofNat m) = true →
      isPunctuation (UInt8.ofNat m) = false := by decide +kernel
  simpa using all ⟨b.toNat, b.toNat_lt⟩ (by simpa using digit)

/-- What is written in hexadecimal are the digits of numbers below 16. -/
theorem exists_digit_of_mem_hex {data : Bytes} {b : UInt8} (member : b ∈ Hex.encode data) :
    ∃ m : Fin 16, b = Hex.digit (UInt8.ofNat m) := by
  have digit {n : UInt8} (small : n.toNat < 16) :
      ∃ m : Fin 16, Hex.digit n = Hex.digit (UInt8.ofNat m) :=
    ⟨⟨n.toNat, small⟩, by rw [UInt8.ofNat_toNat]⟩
  induction data with
  | nil => cases member
  | cons d data ih =>
    have size := d.toNat_lt
    rw [Hex.encode] at member
    rcases List.mem_cons.1 member with rfl | member
    · exact digit (by simp; omega)
    · rcases List.mem_cons.1 member with rfl | member
      · exact digit (by simp; omega)
      · exact ih member

theorem isPunctuation_of_mem_hex {data : Bytes} {b : UInt8} (member : b ∈ Hex.encode data) :
    isPunctuation b = false := by
  have all : ∀ m : Fin 16, isPunctuation (Hex.digit (UInt8.ofNat m)) = false := by decide +kernel
  obtain ⟨m, rfl⟩ := exists_digit_of_mem_hex member
  exact all m

/-! ## Characters of one byte -/

theorem glyphsAfter_eq_glyphs_drop (skip : Nat) (text : Bytes) :
    glyphsAfter skip text = glyphs (text.drop skip) := by
  induction text generalizing skip with
  | nil => cases skip <;> rfl
  | cons b rest ih =>
    cases skip with
    | zero => rfl
    | succ skip => exact ih skip

theorem not_lt_of_isContinuation {b : UInt8} (continues : isContinuation b = true) :
    ¬ b < 0x80 := by
  simp only [isContinuation, Bool.and_eq_true, decide_eq_true_eq] at continues
  exact UInt8.not_lt.2 continues.1

/-- A first byte that begins no character stands alone. -/
theorem whole_of_mem_taken {whole : Prop} [Decidable whole] {found stray : Glyph} {size : Nat}
    {c : UInt8} {rest : Bytes}
    (taken : c ∈ rest.take ((if whole then (found, size) else (stray, 1)).2 - 1)) :
    whole ∧ c ∈ rest.take (size - 1) := by
  split at taken
  · next holds => exact ⟨holds, taken⟩
  · simp at taken

theorem not_lt_of_bound {p : Prop} [Decidable p] {low d : UInt8} (high : 0x80 ≤ low)
    (least : (if p then low else 0x80) ≤ d) : ¬ d < 0x80 := by
  split at least
  · exact UInt8.not_lt.2 (UInt8.le_trans high least)
  · exact UInt8.not_lt.2 least

/-- The bytes of a longer character after its first are none of ASCII. -/
theorem not_lt_of_mem_taken {b c : UInt8} {rest : Bytes}
    (taken : c ∈ rest.take ((firstGlyph b rest).2 - 1)) : ¬ c < 0x80 := by
  simp only [firstGlyph] at taken
  split at taken
  · simp at taken
  split at taken
  · simp at taken
  split at taken
  · split at taken
    · obtain ⟨continues, taken⟩ := whole_of_mem_taken taken
      obtain rfl : c = _ := by simpa using taken
      exact not_lt_of_isContinuation continues
    · simp at taken
  split at taken
  · split at taken
    · obtain ⟨shape, taken⟩ := whole_of_mem_taken taken
      simp only [Bool.and_eq_true, decide_eq_true_eq] at shape
      obtain ⟨⟨least, -⟩, continues⟩ := shape
      rcases (by simpa using taken : c = _ ∨ c = _) with rfl | rfl
      · exact not_lt_of_bound (by decide) least
      · exact not_lt_of_isContinuation continues
    · simp at taken
  split at taken
  · split at taken
    · obtain ⟨shape, taken⟩ := whole_of_mem_taken taken
      simp only [Bool.and_eq_true, decide_eq_true_eq] at shape
      obtain ⟨⟨⟨least, -⟩, second⟩, third⟩ := shape
      rcases (by simpa using taken : c = _ ∨ c = _ ∨ c = _) with rfl | rfl | rfl
      · exact not_lt_of_bound (by decide) least
      · exact not_lt_of_isContinuation second
      · exact not_lt_of_isContinuation third
    · simp at taken
  · simp at taken

theorem glyphs_cons (b : UInt8) (rest : Bytes) :
    glyphs (b :: rest)
      = (firstGlyph b rest).1 :: glyphs (rest.drop ((firstGlyph b rest).2 - 1)) := by
  rw [← glyphsAfter_eq_glyphs_drop]
  rfl

/-- Induction on a text glyph by glyph. -/
theorem glyphs_induction {motive : Bytes → Prop} (nil : motive [])
    (cons : ∀ b rest, motive (rest.drop ((firstGlyph b rest).2 - 1)) → motive (b :: rest))
    (text : Bytes) : motive text := by
  induction size : text.length using Nat.strongRecOn generalizing text with
  | ind n ih =>
    cases text with
    | nil => exact nil
    | cons b rest =>
      refine cons b rest (ih _ ?_ _ rfl)
      subst size
      rw [List.length_drop, List.length_cons]
      omega

/-- A character of one byte is found wherever its byte stands. -/
theorem char_mem_glyphs {c : UInt8} (ascii : c < 0x80) {text : Bytes} (member : c ∈ text) :
    Glyph.char (Char.ofNat c.toNat) ∈ glyphs text := by
  induction text using glyphs_induction with
  | nil => cases member
  | cons b rest ih =>
    rw [glyphs_cons]
    rcases List.mem_cons.1 member with rfl | later
    · rw [firstGlyph.eq_def, if_pos ascii]
      exact List.mem_cons_self
    · rw [← List.take_append_drop ((firstGlyph b rest).2 - 1) rest, List.mem_append] at later
      rcases later with taken | left
      · exact absurd ascii (not_lt_of_mem_taken taken)
      · exact List.mem_cons_of_mem _ (ih left)

end LockScript
