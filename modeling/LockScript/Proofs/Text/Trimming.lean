import LockScript.Proofs.Text.Glyphs

/-!
Text without the blanks around it.

A character is read wherever its bytes stand (`glyphs_append_char`), since its first byte continues no
character before it. So taking the blanks off a text takes glyphs off both of its ends and leaves the
glyphs between them as they were (`exists_trim`). What is left neither begins nor ends with a blank,
and nothing is taken off such a text (`Trimmed.trim_eq`).
-/

namespace LockScript

/-! ## Reading a character -/

theorem firstGlyph_one {b : UInt8} (ascii : b < 0x80) (after : Bytes) :
    firstGlyph b after = (.char (Char.ofNat b.toNat), 1) := by
  rw [firstGlyph.eq_def, if_pos ascii]

theorem firstGlyph_two {b b₁ : UInt8} (low : 0xC2 ≤ b.toNat) (high : b.toNat < 0xE0)
    (second : isContinuation b₁ = true) (after : Bytes) :
    firstGlyph b (b₁ :: after)
      = (.char (Char.ofNat (b.toNat % 32 * 64 + b₁.toNat % 64)), 2) := by
  have above {n : UInt8} (small : n.toNat ≤ 0xC2) : ¬ b < n :=
    UInt8.not_lt.2 (UInt8.le_iff_toNat_le.2 (Nat.le_trans small low))
  rw [firstGlyph, if_neg (above (by decide)), if_neg (above (by decide)),
    if_pos (UInt8.lt_iff_toNat_lt.2 high), if_pos second, ← (toNat_and_mask b).1,
    ← (toNat_and_mask b₁).2.2.2]
  rfl

theorem firstGlyph_three {b b₁ b₂ : UInt8} (low : 0xE0 ≤ b.toNat) (high : b.toNat < 0xF0)
    (overlong : b.toNat = 0xE0 → 0xA0 ≤ b₁.toNat) (surrogate : b.toNat = 0xED → b₁.toNat ≤ 0x9F)
    (second : isContinuation b₁ = true) (third : isContinuation b₂ = true) (after : Bytes) :
    firstGlyph b (b₁ :: b₂ :: after)
      = (.char (Char.ofNat (b.toNat % 16 * 4096 + b₁.toNat % 64 * 64 + b₂.toNat % 64)), 3) := by
  have above {n : UInt8} (small : n.toNat ≤ 0xE0) : ¬ b < n :=
    UInt8.not_lt.2 (UInt8.le_iff_toNat_le.2 (Nat.le_trans small low))
  have bounds := (@bounds_iff _ _ _ _ 0xA0 0x9F _ (by decide) (by decide)).2 ⟨second,
    fun same : b = 0xE0 => UInt8.le_iff_toNat_le.2 (overlong (congrArg UInt8.toNat same)),
    fun same : b = 0xED => UInt8.le_iff_toNat_le.2 (surrogate (congrArg UInt8.toNat same))⟩
  rw [firstGlyph, if_neg (above (by decide)), if_neg (above (by decide)),
    if_neg (above (by decide)), if_pos (UInt8.lt_iff_toNat_lt.2 high)]
  simp only [bounds, third, Bool.and_self, if_true]
  rw [← (toNat_and_mask b).2.1, ← (toNat_and_mask b₁).2.2.2, ← (toNat_and_mask b₂).2.2.2]
  rfl

theorem firstGlyph_four {b b₁ b₂ b₃ : UInt8} (low : 0xF0 ≤ b.toNat) (high : b.toNat < 0xF5)
    (overlong : b.toNat = 0xF0 → 0x90 ≤ b₁.toNat) (past : b.toNat = 0xF4 → b₁.toNat ≤ 0x8F)
    (second : isContinuation b₁ = true) (third : isContinuation b₂ = true)
    (fourth : isContinuation b₃ = true) (after : Bytes) :
    firstGlyph b (b₁ :: b₂ :: b₃ :: after)
      = (.char (Char.ofNat (b.toNat % 8 * 262144 + b₁.toNat % 64 * 4096 + b₂.toNat % 64 * 64
          + b₃.toNat % 64)), 4) := by
  have above {n : UInt8} (small : n.toNat ≤ 0xF0) : ¬ b < n :=
    UInt8.not_lt.2 (UInt8.le_iff_toNat_le.2 (Nat.le_trans small low))
  have bounds := (@bounds_iff _ _ _ _ 0x90 0x8F _ (by decide) (by decide)).2 ⟨second,
    fun same : b = 0xF0 => UInt8.le_iff_toNat_le.2 (overlong (congrArg UInt8.toNat same)),
    fun same : b = 0xF4 => UInt8.le_iff_toNat_le.2 (past (congrArg UInt8.toNat same))⟩
  rw [firstGlyph, if_neg (above (by decide)), if_neg (above (by decide)),
    if_neg (above (by decide)), if_neg (above (by decide)),
    if_pos (UInt8.lt_iff_toNat_lt.2 high)]
  simp only [bounds, third, fourth, Bool.and_self, if_true]
  rw [← (toNat_and_mask b).2.2.1, ← (toNat_and_mask b₁).2.2.2, ← (toNat_and_mask b₂).2.2.2,
    ← (toNat_and_mask b₃).2.2.2]
  rfl

/-- The bytes of a character begin with one that continues no other, and are read as it. -/
theorem firstGlyph_encode (c : Char) : ∃ b rest, String.utf8EncodeChar c = b :: rest ∧
    isContinuation b = false ∧
    ∀ after, firstGlyph b (rest ++ after) = (.char c, rest.length + 1) := by
  have valid : c.val.toNat < 0xD800 ∨ 0xDFFF < c.val.toNat ∧ c.val.toNat < 0x110000 := c.valid
  have char {n : Nat} (same : n = c.val.toNat) : Char.ofNat n = c := by
    rw [same]
    exact c.ofNat_toNat
  have size {n : Nat} (small : n < 256) : (UInt8.ofNat n).toNat = n := by
    rw [UInt8.toNat_ofNat']
    omega
  have leads {n : Nat} (small : n < 256) (high : 0xC0 ≤ n) :
      isContinuation (UInt8.ofNat n) = false := by
    rw [← Bool.not_eq_true, isContinuation_iff, size small]
    omega
  have continues (n : Nat) : isContinuation (UInt8.ofNat (n % 64 + 128)) = true ∧
      (UInt8.ofNat (n % 64 + 128)).toNat = n % 64 + 128 := by
    rw [isContinuation_iff, size (by omega)]
    omega
  rw [String.utf8EncodeChar]
  split
  · have ascii : UInt8.ofNat c.val.toNat < 0x80 := by
      rw [UInt8.lt_iff_toNat_lt, size (by omega)]
      exact Nat.lt_succ_of_le ‹_›
    refine ⟨_, [], rfl, isContinuation_eq_false ascii, fun after => ?_⟩
    rw [firstGlyph_one ascii, size (by omega), char rfl]
    rfl
  split
  · refine ⟨_, [_], rfl, leads (by omega) (by omega), fun after => ?_⟩
    have first := size (n := c.val.toNat / 64 % 32 + 192) (by omega)
    obtain ⟨second, size₁⟩ := continues c.val.toNat
    rw [List.singleton_append, firstGlyph_two (by omega) (by omega) second, char (by omega)]
    rfl
  split
  · refine ⟨_, [_, _], rfl, leads (by omega) (by omega), fun after => ?_⟩
    have first := size (n := c.val.toNat / 4096 % 16 + 224) (by omega)
    obtain ⟨second, size₁⟩ := continues (c.val.toNat / 64)
    obtain ⟨third, size₂⟩ := continues c.val.toNat
    rw [List.cons_append, List.singleton_append, firstGlyph_three (by omega) (by omega) (by omega)
      (by omega) second third, char (by omega)]
    rfl
  · refine ⟨_, [_, _, _], rfl, leads (by omega) (by omega), fun after => ?_⟩
    have first := size (n := c.val.toNat / 262144 % 8 + 240) (by omega)
    obtain ⟨second, size₁⟩ := continues (c.val.toNat / 4096)
    obtain ⟨third, size₂⟩ := continues (c.val.toNat / 64)
    obtain ⟨fourth, size₃⟩ := continues c.val.toNat
    rw [List.cons_append, List.cons_append, List.singleton_append, firstGlyph_four (by omega)
      (by omega) (by omega) (by omega) second third fourth, char (by omega)]
    rfl

/-- A character is read wherever its bytes stand. -/
theorem glyphs_append_char (before : Bytes) (c : Char) (after : Bytes) :
    glyphs (before ++ (String.utf8EncodeChar c ++ after))
      = glyphs before ++ .char c :: glyphs after := by
  obtain ⟨b, rest, bytes, lead, first⟩ := firstGlyph_encode c
  rw [bytes, List.cons_append, glyphs_append_lead lead, glyphs_cons, first]
  dsimp only
  rw [Nat.add_sub_cancel, List.drop_left]

/-! ## Some of the glyphs of a text -/

/-- The last glyphs of a text are those of their own bytes. -/
theorem glyphs_flatMap_of_suffix {text : Bytes} {gs hs : List Glyph}
    (cut : glyphs text = gs ++ hs) : glyphs (hs.flatMap Glyph.bytes) = hs := by
  induction gs generalizing text with
  | nil =>
    rw [List.nil_append] at cut
    rw [← cut, flatMap_bytes_glyphs]
  | cons g gs ih =>
    cases text with
    | nil => cases cut
    | cons b rest =>
      rw [glyphs_cons] at cut
      exact ih (List.cons.inj cut).2

/-- So are the glyphs before a character. -/
theorem glyphs_flatMap_of_prefix {text : Bytes} {gs hs : List Glyph}
    (cut : glyphs text = gs ++ hs) (ends : ∀ g ∈ hs.head?, ∃ c, g = .char c) :
    glyphs (gs.flatMap Glyph.bytes) = gs := by
  cases hs with
  | nil =>
    rw [List.append_nil] at cut
    rw [← cut, flatMap_bytes_glyphs]
  | cons g hs =>
    obtain ⟨c, rfl⟩ := ends g rfl
    have beyond : glyphs text = (gs ++ [.char c]) ++ hs := by
      rw [cut, List.append_assoc]
      rfl
    have later := glyphs_flatMap_of_suffix beyond
    have whole : glyphs text
        = glyphs (gs.flatMap Glyph.bytes) ++ .char c :: glyphs (hs.flatMap Glyph.bytes) := by
      have bytes := flatMap_bytes_glyphs text
      rw [cut, List.flatMap_append, List.flatMap_cons] at bytes
      rw [← glyphs_append_char, ← bytes, Glyph.bytes]
    rw [whole, later] at cut
    exact List.append_cancel_right cut

/-! ## Taking blanks off -/

/-- The text neither begins nor ends with a blank. -/
structure Trimmed (text : Bytes) : Prop where
  front : ∀ c, isBlank c = true → ¬ String.utf8EncodeChar c <+: text
  back : ∀ c, isBlank c = true → ¬ String.utf8EncodeChar c <:+ text

theorem eq_false_of_head?_dropWhile {p : Glyph → Bool} {gs : List Glyph} {g : Glyph}
    (first : g ∈ (gs.dropWhile p).head?) : p g = false := by
  have stopped := List.head?_dropWhile_not p gs
  rw [first] at stopped
  simpa using stopped

/-- What is taken off a text and what is left of it: some glyphs, those that are kept, and blanks. -/
theorem exists_trim (text : Bytes) : ∃ front core back, glyphs text = front ++ (core ++ back) ∧
    (∀ g ∈ back, g.isBlank = true) ∧ (∀ g ∈ core.head?, g.isBlank = false) ∧
    (∀ g ∈ core.getLast?, g.isBlank = false) ∧ trim text = core.flatMap Glyph.bytes := by
  let rest := (glyphs text).dropWhile Glyph.isBlank
  let core := (rest.reverse.dropWhile Glyph.isBlank).reverse
  let back := (rest.reverse.takeWhile Glyph.isBlank).reverse
  have parts : core ++ back = rest := by
    rw [← List.reverse_append, List.takeWhile_append_dropWhile, List.reverse_reverse]
  refine ⟨(glyphs text).takeWhile Glyph.isBlank, core, back, ?_, ?_, ?_, ?_, rfl⟩
  · rw [parts, List.takeWhile_append_dropWhile]
  · intro g member
    exact List.all_eq_true.1 List.all_takeWhile g (List.mem_reverse.1 member)
  · intro g first
    have leads : g ∈ rest.head? := by
      rw [← parts, List.head?_append, first]
      rfl
    exact eq_false_of_head?_dropWhile leads
  · intro g last
    rw [List.getLast?_reverse] at last
    exact eq_false_of_head?_dropWhile last

/-- The glyphs that are left are those of the trimmed text. -/
theorem glyphs_trim {text : Bytes} {front core back : List Glyph}
    (parts : glyphs text = front ++ (core ++ back)) (blank : ∀ g ∈ back, g.isBlank = true) :
    glyphs (core.flatMap Glyph.bytes) = core := by
  have rest := glyphs_flatMap_of_suffix parts
  apply glyphs_flatMap_of_prefix rest
  intro g first
  have isBlank := blank g (List.mem_of_mem_head? first)
  cases g with
  | char c => exact ⟨c, rfl⟩
  | stray b => cases isBlank

/-- A trimmed text is a part of the text. -/
theorem trim_isInfix (text : Bytes) : trim text <:+: text := by
  obtain ⟨front, core, back, parts, -, -, -, trimmed⟩ := exists_trim text
  refine ⟨front.flatMap Glyph.bytes, back.flatMap Glyph.bytes, ?_⟩
  have bytes := flatMap_bytes_glyphs text
  rw [parts, List.flatMap_append, List.flatMap_append] at bytes
  rw [trimmed, List.append_assoc, bytes]

/-- There is no blank left at either end. -/
theorem trimmed_trim (text : Bytes) : Trimmed (trim text) := by
  obtain ⟨front, core, back, parts, blank, first, last, trimmed⟩ := exists_trim text
  have kept := glyphs_trim parts blank
  rw [trimmed]
  constructor
  · intro c isBlank begins
    obtain ⟨after, whole⟩ := begins
    have found := glyphs_append_char [] c after
    rw [List.nil_append, whole, kept] at found
    have solid := first (.char c) (by rw [found]; rfl)
    rw [Glyph.isBlank, isBlank] at solid
    cases solid
  · intro c isBlank ends
    obtain ⟨before, whole⟩ := ends
    have found := glyphs_append_char before c []
    rw [List.append_nil, whole, kept] at found
    have solid := last (.char c) (by rw [found]; exact List.getLast?_concat)
    rw [Glyph.isBlank, isBlank] at solid
    cases solid

/-- Nothing is taken off a text without a blank at either end. -/
theorem Trimmed.trim_eq {text : Bytes} (trimmed : Trimmed text) : trim text = text := by
  have bytes := flatMap_bytes_glyphs text
  have front : (glyphs text).dropWhile Glyph.isBlank = glyphs text := by
    cases gs : glyphs text with
    | nil => rfl
    | cons g gs' =>
      apply List.dropWhile_cons_of_neg
      intro blank
      cases g with
      | char c =>
        rw [gs, List.flatMap_cons] at bytes
        exact trimmed.front c blank ⟨_, bytes⟩
      | stray b => cases blank
  have back : (glyphs text).reverse.dropWhile Glyph.isBlank = (glyphs text).reverse := by
    cases gs : (glyphs text).reverse with
    | nil => rfl
    | cons g gs' =>
      apply List.dropWhile_cons_of_neg
      intro blank
      cases g with
      | char c =>
        rw [List.reverse_eq_cons_iff.1 gs, List.flatMap_append] at bytes
        exact trimmed.back c blank ⟨_, by simpa [Glyph.bytes] using bytes⟩
      | stray b => cases blank
  rw [trim, front, back, List.reverse_reverse, bytes]

end LockScript
