import LockScript.Text.Blank
import LockScript.Proofs.Text.Words

/-!
Glyphs of a text, and texts without blanks.

Writing the glyphs of a text back gives the text, and a byte of ASCII is a glyph of its own wherever
it stands, so that the glyphs of a text can be taken on either side of it. A text without blanks
stays as it is when the blanks around it are taken off, and so do the words between its punctuation.
-/

namespace LockScript

/-! ## Characters of several bytes -/

/-- The low bits of a byte. -/
theorem toNat_and_mask (b : UInt8) :
    (b &&& 0x1F).toNat = b.toNat % 32 ∧ (b &&& 0x0F).toNat = b.toNat % 16 ∧
      (b &&& 0x07).toNat = b.toNat % 8 ∧ (b &&& 0x3F).toNat = b.toNat % 64 :=
  ⟨Nat.and_two_pow_sub_one_eq_mod b.toNat 5, Nat.and_two_pow_sub_one_eq_mod b.toNat 4,
    Nat.and_two_pow_sub_one_eq_mod b.toNat 3, Nat.and_two_pow_sub_one_eq_mod b.toNat 6⟩

theorem toNat_val_ofNat {n : Nat} (valid : n.isValidChar) : (Char.ofNat n).val.toNat = n := by
  rw [Char.ofNat, dif_pos valid]
  rfl

theorem uint8_eq_of_toNat {n : Nat} {b : UInt8} (same : n = b.toNat) : UInt8.ofNat n = b := by
  rw [same, UInt8.ofNat_toNat]

theorem isContinuation_iff {b : UInt8} :
    isContinuation b = true ↔ 128 ≤ b.toNat ∧ b.toNat ≤ 191 := by
  simp [isContinuation, UInt8.le_iff_toNat_le]

theorem encode_ascii {b : UInt8} (ascii : b < 0x80) :
    String.utf8EncodeChar (Char.ofNat b.toNat) = [b] := by
  have small : b.toNat < 128 := UInt8.lt_iff_toNat_lt.1 ascii
  rw [String.utf8EncodeChar, toNat_val_ofNat (.inl (by omega)), if_pos (by omega),
    UInt8.ofNat_toNat]

theorem encode_two {b b₁ : UInt8} (low : 0xC2 ≤ b.toNat) (high : b.toNat < 0xE0)
    (second : isContinuation b₁ = true) :
    String.utf8EncodeChar (Char.ofNat ((b &&& 0x1F).toNat * 64 + (b₁ &&& 0x3F).toNat))
      = [b, b₁] := by
  rw [isContinuation_iff] at second
  rw [(toNat_and_mask b).1, (toNat_and_mask b₁).2.2.2, String.utf8EncodeChar,
    toNat_val_ofNat (.inl (by omega)), if_neg (by omega), if_pos (by omega),
    uint8_eq_of_toNat (b := b) (by omega), uint8_eq_of_toNat (b := b₁) (by omega)]

/-- Three bytes whose second is bounded as the first one asks write a character that is neither
shorter nor a surrogate. -/
theorem encode_three {b b₁ b₂ : UInt8} (low : 0xE0 ≤ b.toNat) (high : b.toNat < 0xF0)
    (overlong : b = 0xE0 → 0xA0 ≤ b₁) (surrogate : b = 0xED → b₁ ≤ 0x9F)
    (second : isContinuation b₁ = true) (third : isContinuation b₂ = true) :
    String.utf8EncodeChar (Char.ofNat ((b &&& 0x0F).toNat * 4096 + (b₁ &&& 0x3F).toNat * 64
      + (b₂ &&& 0x3F).toNat)) = [b, b₁, b₂] := by
  rw [isContinuation_iff] at second third
  rw [← UInt8.toNat_inj, UInt8.le_iff_toNat_le] at overlong surrogate
  simp only [UInt8.reduceToNat] at overlong surrogate
  have valid : (b.toNat % 16 * 4096 + b₁.toNat % 64 * 64 + b₂.toNat % 64).isValidChar := by
    unfold Nat.isValidChar
    omega
  rw [(toNat_and_mask b).2.1, (toNat_and_mask b₁).2.2.2, (toNat_and_mask b₂).2.2.2,
    String.utf8EncodeChar, toNat_val_ofNat valid, if_neg (by omega), if_neg (by omega),
    if_pos (by omega), uint8_eq_of_toNat (b := b) (by omega),
    uint8_eq_of_toNat (b := b₁) (by omega), uint8_eq_of_toNat (b := b₂) (by omega)]

/-- Four bytes whose second is bounded as the first one asks write a character that is neither
shorter nor past the last one. -/
theorem encode_four {b b₁ b₂ b₃ : UInt8} (low : 0xF0 ≤ b.toNat) (high : b.toNat < 0xF5)
    (overlong : b = 0xF0 → 0x90 ≤ b₁) (past : b = 0xF4 → b₁ ≤ 0x8F)
    (second : isContinuation b₁ = true) (third : isContinuation b₂ = true)
    (fourth : isContinuation b₃ = true) :
    String.utf8EncodeChar (Char.ofNat ((b &&& 0x07).toNat * 262144 + (b₁ &&& 0x3F).toNat * 4096
      + (b₂ &&& 0x3F).toNat * 64 + (b₃ &&& 0x3F).toNat)) = [b, b₁, b₂, b₃] := by
  rw [isContinuation_iff] at second third fourth
  rw [← UInt8.toNat_inj, UInt8.le_iff_toNat_le] at overlong past
  simp only [UInt8.reduceToNat] at overlong past
  have valid : (b.toNat % 8 * 262144 + b₁.toNat % 64 * 4096 + b₂.toNat % 64 * 64
      + b₃.toNat % 64).isValidChar := by
    unfold Nat.isValidChar
    omega
  rw [(toNat_and_mask b).2.2.1, (toNat_and_mask b₁).2.2.2, (toNat_and_mask b₂).2.2.2,
    (toNat_and_mask b₃).2.2.2, String.utf8EncodeChar, toNat_val_ofNat valid, if_neg (by omega),
    if_neg (by omega), if_neg (by omega), uint8_eq_of_toNat (b := b) (by omega),
    uint8_eq_of_toNat (b := b₁) (by omega), uint8_eq_of_toNat (b := b₂) (by omega),
    uint8_eq_of_toNat (b := b₃) (by omega)]

/-! ## The first glyph -/

/-- The bounds of a second byte. -/
theorem bounds_iff {p q : Prop} [Decidable p] [Decidable q] {low high d : UInt8}
    (least : 0x80 ≤ low) (most : high ≤ 0xBF) :
    (decide ((if p then low else 0x80) ≤ d) && decide (d ≤ if q then high else 0xBF)) = true ↔
      isContinuation d = true ∧ (p → low ≤ d) ∧ (q → d ≤ high) := by
  simp only [isContinuation, Bool.and_eq_true, decide_eq_true_eq, UInt8.le_iff_toNat_le] at *
  split <;> split <;> simp_all <;> omega

/-- A first byte that begins no character is written as it is. -/
theorem bytes_whole_or_stray {whole : Prop} [Decidable whole] {found : Glyph} {size : Nat}
    {b : UInt8} {rest : Bytes} (written : whole → found.bytes = b :: rest.take (size - 1)) :
    (if whole then (found, size) else (.stray b, 1)).1.bytes
      = b :: rest.take ((if whole then (found, size) else (.stray b, 1)).2 - 1) := by
  split
  · next holds => exact written holds
  · rfl

/-- A first glyph is written as it was read. -/
theorem bytes_firstGlyph (b : UInt8) (rest : Bytes) :
    (firstGlyph b rest).1.bytes = b :: rest.take ((firstGlyph b rest).2 - 1) := by
  unfold firstGlyph
  dsimp only
  split
  · next ascii => exact encode_ascii ascii
  split
  · rfl
  next low =>
  rw [UInt8.not_lt, UInt8.le_iff_toNat_le] at low
  split
  · next high =>
    rw [UInt8.lt_iff_toNat_lt] at high
    split
    · exact bytes_whole_or_stray fun second => encode_two low high second
    · rfl
  next low =>
  rw [UInt8.not_lt, UInt8.le_iff_toNat_le] at low
  split
  · next high =>
    rw [UInt8.lt_iff_toNat_lt] at high
    split
    · refine bytes_whole_or_stray fun shape => ?_
      rw [Bool.and_eq_true, bounds_iff (by decide) (by decide)] at shape
      obtain ⟨⟨second, overlong, surrogate⟩, third⟩ := shape
      exact encode_three low high overlong surrogate second third
    · rfl
  next low =>
  rw [UInt8.not_lt, UInt8.le_iff_toNat_le] at low
  split
  · next high =>
    rw [UInt8.lt_iff_toNat_lt] at high
    split
    · refine bytes_whole_or_stray fun shape => ?_
      rw [Bool.and_eq_true, Bool.and_eq_true, bounds_iff (by decide) (by decide)] at shape
      obtain ⟨⟨⟨second, overlong, past⟩, third⟩, fourth⟩ := shape
      exact encode_four low high overlong past second third fourth
    · rfl
  · rfl

theorem isContinuation_eq_false {b : UInt8} (ascii : b < 0x80) : isContinuation b = false := by
  rw [← Bool.not_eq_true]
  exact fun continues => not_lt_of_isContinuation continues ascii

/-- Nothing from a byte on that continues no character takes part in a glyph before it. -/
theorem firstGlyph_append {c : UInt8} (ends : isContinuation c = false) (b : UInt8)
    (rest after : Bytes) : firstGlyph b (rest ++ c :: after) = firstGlyph b rest := by
  have bounded {p q : Prop} [Decidable p] [Decidable q] (low high : UInt8) (least : 0x80 ≤ low)
      (most : high ≤ 0xBF) : (decide ((if p then low else 0x80) ≤ c)
        && decide (c ≤ if q then high else 0xBF)) = false := by
    rw [← Bool.not_eq_true, bounds_iff least most, ends]
    simp
  unfold firstGlyph
  rcases rest with _ | ⟨b₁, _ | ⟨b₂, _ | ⟨b₃, rest⟩⟩⟩
  · rcases after with _ | ⟨d, _ | ⟨d', after⟩⟩ <;>
      simp [ends, bounded 0xA0 0x9F (by decide) (by decide),
        bounded 0x90 0x8F (by decide) (by decide)]
  · rcases after with _ | ⟨d, after⟩ <;> simp [ends]
  · simp [ends]
  · rfl

/-- A first glyph takes no more bytes than there are. -/
theorem size_firstGlyph_le (b : UInt8) (rest : Bytes) :
    (firstGlyph b rest).2 - 1 ≤ rest.length := by
  rcases rest with _ | ⟨b₁, _ | ⟨b₂, _ | ⟨b₃, rest⟩⟩⟩ <;> grind [firstGlyph]

/-! ## All glyphs -/

/-- The glyphs of a text are written as they were read. -/
theorem flatMap_bytes_glyphs (text : Bytes) : (glyphs text).flatMap Glyph.bytes = text := by
  induction text using glyphs_induction with
  | nil => rfl
  | cons b rest ih =>
    rw [glyphs_cons, List.flatMap_cons, ih, bytes_firstGlyph, List.cons_append,
      List.take_append_drop]

/-- The glyphs before and from a byte that continues no character. -/
theorem glyphs_append_lead {c : UInt8} (lead : isContinuation c = false) (before after : Bytes) :
    glyphs (before ++ c :: after) = glyphs before ++ glyphs (c :: after) := by
  induction before using glyphs_induction with
  | nil => rfl
  | cons b rest ih =>
    rw [List.cons_append, glyphs_cons, firstGlyph_append lead,
      List.drop_append_of_le_length (size_firstGlyph_le b rest), ih, glyphs_cons b rest,
      List.cons_append]

/-- The glyphs on either side of a byte of ASCII. -/
theorem glyphs_append {c : UInt8} (ascii : c < 0x80) (before after : Bytes) :
    glyphs (before ++ c :: after)
      = glyphs before ++ .char (Char.ofNat c.toNat) :: glyphs after := by
  rw [glyphs_append_lead (isContinuation_eq_false ascii), glyphs_cons, firstGlyph.eq_def,
    if_pos ascii]
  rfl

/-! ## Texts without blanks -/

/-- No glyph of the text is a blank. -/
def Blankless (text : Bytes) : Prop := ∀ g ∈ glyphs text, g.isBlank = false

instance (text : Bytes) : Decidable (Blankless text) :=
  inferInstanceAs (Decidable (∀ g ∈ glyphs text, g.isBlank = false))

namespace Blankless

variable {text word rest : Bytes}

/-- A word and what comes after it have no blanks either, if that begins with a byte of ASCII. -/
theorem split (blankless : Blankless (word ++ rest))
    (ascii : ∀ c, rest.head? = some c → c < 0x80) : Blankless word ∧ Blankless rest := by
  cases rest with
  | nil =>
    rw [List.append_nil] at blankless
    exact ⟨blankless, fun g member => nomatch member⟩
  | cons c rest =>
    have first : c < 0x80 := ascii c rfl
    unfold Blankless at blankless ⊢
    rw [glyphs_append first] at blankless
    rw [show glyphs (c :: rest) = _ from glyphs_append first [] rest]
    exact ⟨fun g member => blankless g (List.mem_append_left _ member),
      fun g member => blankless g (List.mem_append_right _ member)⟩

theorem tail {c : UInt8} (blankless : Blankless (c :: rest)) (ascii : c < 0x80) :
    Blankless rest := by
  unfold Blankless at blankless
  rw [show glyphs (c :: rest) = _ from glyphs_append ascii [] rest] at blankless
  exact fun g member => blankless g (List.mem_cons_of_mem _ member)

theorem trim_eq (blankless : Blankless text) : trim text = text := by
  have none {gs : List Glyph} (all : ∀ g ∈ gs, g.isBlank = false) :
      gs.dropWhile Glyph.isBlank = gs := by
    cases gs with
    | nil => rfl
    | cons g gs => rw [List.dropWhile_cons_of_neg (by simp [all g List.mem_cons_self])]
  rw [trim, none blankless, none fun g member => blankless g (List.mem_reverse.1 member),
    List.reverse_reverse, flatMap_bytes_glyphs]

theorem isGap_eq_false (blankless : Blankless text) {b : UInt8} (member : b ∈ text) :
    isGap b = false := by
  rw [← Bool.not_eq_true]
  intro gap
  have cases : b = 0x20 ∨ b = 0x09 ∨ b = 0x0D ∨ b = 0x0A := by
    simpa [isGap, or_assoc] using gap
  have ascii : b < 0x80 := by
    rcases cases with rfl | rfl | rfl | rfl <;> decide
  have solid := blankless _ (char_mem_glyphs ascii member)
  rcases cases with rfl | rfl | rfl | rfl <;> cases solid

end Blankless

end LockScript
