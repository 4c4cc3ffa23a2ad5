import LockScript.Key.Basic
import LockScript.Proofs.Text.Words

/-!
Reading keys.

A point is read from its encoding and from nothing else. What a reader finds in a text it finds
again in the text of the key (`legible_of_read`), and no key has punctuation in its text, so that
keys can be listed.
-/

namespace LockScript

/-- The generator of the curve. -/
def Point.generator : Point where
  bytes := [0x02, 0x79, 0xBE, 0x66, 0x7E, 0xF9, 0xDC, 0xBB, 0xAC, 0x55, 0xA0, 0x62, 0x95, 0xCE,
    0x87, 0x0B, 0x07, 0x02, 0x9B, 0xFC, 0xDB, 0x2D, 0xCE, 0x28, 0xD9, 0x59, 0xF2, 0x81, 0x5B, 0x16,
    0xF8, 0x17, 0x98]
  valid := by decide +kernel

namespace Key

open Expression (isPunctuation)

theorem ofBytes_eq_ok_iff {data : Bytes} {k : Key} :
    ofBytes data = .ok k ↔ ∃ p : Point, k = .point p ∧ p.bytes = data := by
  unfold ofBytes
  constructor
  · intro read
    split at read
    · next p made =>
      unfold Point.ofBytes at made
      split at made
      · cases made
        cases read
        exact ⟨_, rfl, rfl⟩
      · cases made
    · cases read
  · rintro ⟨p, rfl, rfl⟩
    rw [p.ofBytes_bytes]

theorem ofHex_text (p : Point) : ofHex (Key.point p).text = .ok (.point p) := by
  unfold ofHex text
  rw [Hex.decode_encode]
  exact ofBytes_eq_ok_iff.2 ⟨p, rfl, rfl⟩

theorem exists_point_of_ofHex {t : Bytes} {k : Key} (read : ofHex t = .ok k) :
    ∃ p, k = .point p := by
  unfold ofHex at read
  split at read
  · obtain ⟨p, same, -⟩ := ofBytes_eq_ok_iff.1 read
    exact ⟨p, same⟩
  · cases read

theorem ofText_text (p : Point) : ofText (Key.point p).text = .ok (.point p) := by
  have size : (Key.point p).text.length = 2 * Point.size := by
    rw [text, Hex.length_encode, p.length_bytes, Point.size]
  have decoded : Hex.decode (Key.point p).text = .ok p.bytes := Hex.decode_encode p.bytes
  unfold ofText
  rw [if_pos size, decoded]
  exact ofHex_text p

/-- A name is read as it is, and holds only the characters of names. -/
theorem ofName_eq_ok {t : Bytes} {k : Key} (read : ofName t = .ok k) :
    k = .named t ∧ ∀ g ∈ glyphs t, isNameChar g.shown = true := by
  unfold ofName at read
  split at read
  · cases read
  · split at read
    · cases read
    · next none =>
      cases read
      refine ⟨rfl, fun g member => ?_⟩
      have absent := List.find?_eq_none.1 none g.shown (List.mem_map_of_mem member)
      simpa using absent

/-! ## Keys that are read back -/

/-- A key that a reader finds in its text, which is a word without punctuation. -/
structure Legible (read : Reader) (k : Key) : Prop where
  found : read k.text = .ok k
  plain : ∀ b ∈ k.text, isPunctuation b = false

theorem isPunctuation_of_isNameChar {t : Bytes}
    (names : ∀ g ∈ glyphs t, isNameChar g.shown = true) {b : UInt8} (member : b ∈ t) :
    isPunctuation b = false := by
  apply Bool.eq_false_iff.2
  intro punctuation
  have among : b = byte '(' ∨ b = byte ',' ∨ b = byte ')' := by
    simpa [isPunctuation, or_assoc] using punctuation
  rcases among with rfl | rfl | rfl
  · cases names _ (char_mem_glyphs (by decide) member)
  · cases names _ (char_mem_glyphs (by decide) member)
  · cases names _ (char_mem_glyphs (by decide) member)

theorem legible_point {read : Reader} {p : Point}
    (found : read (Key.point p).text = .ok (.point p)) : (Key.point p).Legible read :=
  ⟨found, fun _ member => isPunctuation_of_mem_hex member⟩

theorem legible_name {read : Reader} {t : Bytes} {k : Key} (named : ofName t = .ok k)
    (found : read t = .ok k) : k.Legible read := by
  obtain ⟨rfl, names⟩ := ofName_eq_ok named
  exact ⟨found, fun b member => isPunctuation_of_isNameChar names member⟩

/-- The readers of keys in texts: of points and names, of points only, and of names only. -/
inductive Reader.Standard : Reader → Prop
  | text : Standard ofText
  | hex : Standard ofHex
  | name : Standard ofName

/-- The keys that are read from any text are read from their own. -/
theorem legible_of_read {read : Reader} (standard : Reader.Standard read) {t : Bytes} {k : Key}
    (found : read t = .ok k) : k.Legible read := by
  cases standard with
  | text =>
    have ofText := found
    unfold Key.ofText at found
    split at found
    · split at found
      · obtain ⟨p, rfl⟩ := exists_point_of_ofHex found
        exact legible_point (ofText_text p)
      · exact legible_name found ofText
    · exact legible_name found ofText
  | hex =>
    obtain ⟨p, rfl⟩ := exists_point_of_ofHex found
    exact legible_point (ofHex_text p)
  | name => exact legible_name found found

end Key

end LockScript
