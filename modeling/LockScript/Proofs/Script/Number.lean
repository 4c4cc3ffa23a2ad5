import LockScript.Script.Number
import Mathlib.Tactic.Ring

/-!
Script numbers are read back as they were written, and each number has one minimal form.
-/

namespace LockScript.ScriptNumber

/-! ## Magnitudes -/

/-- The bytes of a number stand for it. -/
theorem ofLittleEndian_magnitude {bound n : Nat} (room : n ≤ bound) :
    ofLittleEndian (magnitude bound n) = n := by
  induction bound generalizing n with
  | zero => simp [magnitude, ofLittleEndian]; omega
  | succ bound ih =>
    by_cases none : n = 0
    · simp [magnitude, none, ofLittleEndian]
    · simp only [magnitude, none, if_false, ofLittleEndian]
      rw [ih (by omega), UInt8.toNat_ofNat']
      omega

/-- The last byte of a magnitude is not 0. -/
theorem getLast?_magnitude_ne_zero {bound n : Nat} (room : n ≤ bound) :
    (magnitude bound n).getLast? ≠ some 0 := by
  induction bound generalizing n with
  | zero => simp [magnitude]
  | succ bound ih =>
    by_cases none : n = 0
    · simp [magnitude, none]
    · simp only [magnitude, none, if_false]
      have less : n / 256 ≤ bound := by omega
      have tail := ih less
      cases rest : magnitude bound (n / 256) with
      | nil =>
        -- nothing is left of the number, so it is its lowest byte
        have small := ofLittleEndian_magnitude less
        rw [rest, ofLittleEndian] at small
        simp only [List.getLast?_singleton, ne_eq, Option.some.injEq]
        intro zero
        have low := congrArg UInt8.toNat zero
        rw [UInt8.toNat_ofNat'] at low
        simp at low
        omega
      | cons b bs =>
        rw [rest] at tail
        rw [List.getLast?_cons_cons]
        exact tail

/-- Bytes that do not end in 0 are the magnitude of the number they stand for. -/
theorem magnitude_ofLittleEndian {data : Bytes} {bound : Nat} (last : data.getLast? ≠ some 0)
    (room : ofLittleEndian data ≤ bound) : magnitude bound (ofLittleEndian data) = data := by
  induction data generalizing bound with
  | nil => cases bound <;> simp [ofLittleEndian, magnitude]
  | cons b rest ih =>
    have size := b.toNat_lt
    have restLast : rest.getLast? ≠ some 0 := by
      cases rest with
      | nil => simp
      | cons c cs => rwa [List.getLast?_cons_cons] at last
    have positive : ofLittleEndian (b :: rest) ≠ 0 := by
      intro zero
      rw [ofLittleEndian] at zero
      have low : b = 0 := UInt8.toNat_inj.1 (by simp; omega)
      have high : ofLittleEndian rest = 0 := by omega
      have empty := ih restLast (Nat.le_refl _)
      rw [high, magnitude] at empty
      rw [← empty, low] at last
      exact last rfl
    cases bound with
    | zero => omega
    | succ bound =>
      rw [ofLittleEndian] at positive room
      rw [ofLittleEndian, magnitude, if_neg positive]
      have high : (b.toNat + 256 * ofLittleEndian rest) / 256 = ofLittleEndian rest := by omega
      have low : UInt8.ofNat (b.toNat + 256 * ofLittleEndian rest) = b := by
        apply UInt8.toNat_inj.1
        rw [UInt8.toNat_ofNat']
        omega
      rw [high, low, ih restLast (by omega)]

/-- A zero byte at the end changes nothing. -/
theorem ofLittleEndian_append_zero (data : Bytes) :
    ofLittleEndian (data ++ [0]) = ofLittleEndian data := by
  induction data with
  | nil => rfl
  | cons b rest ih => simp [ofLittleEndian, ih]

/-- The last byte of a number is worth `256` to the power of the bytes before it. -/
theorem ofLittleEndian_append_singleton (data : Bytes) (top : UInt8) :
    ofLittleEndian (data ++ [top]) = ofLittleEndian data + top.toNat * 256 ^ data.length := by
  induction data with
  | nil => simp [ofLittleEndian]
  | cons b rest ih =>
    simp only [List.cons_append, ofLittleEndian, ih, List.length_cons, Nat.pow_succ]
    ring

theorem ofLittleEndian_lt (data : Bytes) : ofLittleEndian data < 256 ^ data.length := by
  induction data with
  | nil => decide
  | cons b rest ih =>
    have low := b.toNat_lt
    rw [ofLittleEndian, List.length_cons, Nat.pow_succ]
    omega

/-- A shift by whole bytes. -/
theorem shiftLeft_bytes (n size : Nat) : n <<< (8 * size) = n * 256 ^ size := by
  rw [Nat.shiftLeft_eq, Nat.pow_mul]

/-! ## The sign bit -/

/-- A byte below 0x80 has no bit but those of the value. -/
theorem and_7F_eq_zero_iff (b : UInt8) : b &&& 0x7F = 0 ↔ b = 0 ∨ b = 0x80 := by
  have all : ∀ m : Fin 256,
      UInt8.ofNat m &&& 0x7F = 0 ↔ UInt8.ofNat m = 0 ∨ UInt8.ofNat m = 0x80 := by
    decide +kernel
  simpa using all ⟨b.toNat, b.toNat_lt⟩

/-- The top bit is set from 0x80 on. -/
theorem and_80_eq_zero_iff (b : UInt8) : b &&& 0x80 = 0 ↔ b < 0x80 := by
  have all : ∀ m : Fin 256, UInt8.ofNat m &&& 0x80 = 0 ↔ UInt8.ofNat m < 0x80 := by
    decide +kernel
  simpa using all ⟨b.toNat, b.toNat_lt⟩

/-! ## Writing -/

/-- A number other than 0 is written as its magnitude, with a zero byte after it where the top bit
would be taken for the sign. -/
theorem encode_cases (n : Nat) :
    (n = 0 ∧ encode n = []) ∨
      ∃ init top, magnitude n n = init ++ [top] ∧ top ≠ 0 ∧
        (top < 0x80 ∧ encode n = init ++ [top] ∨
          ¬ top < 0x80 ∧ encode n = init ++ [top] ++ [0]) := by
  rcases List.eq_nil_or_concat (magnitude n n) with empty | ⟨init, top, shape⟩
  · left
    have value := ofLittleEndian_magnitude (Nat.le_refl n)
    rw [empty, ofLittleEndian] at value
    exact ⟨value.symm, by simp [encode, empty]⟩
  · right
    have last := getLast?_magnitude_ne_zero (Nat.le_refl n)
    rw [List.concat_eq_append] at shape
    rw [shape, List.getLast?_concat] at last
    refine ⟨init, top, shape, fun zero => last (by rw [zero]), ?_⟩
    by_cases low : top < 0x80
    · exact .inl ⟨low, by simp [encode, shape, low]⟩
    · exact .inr ⟨low, by simp [encode, shape, low]⟩

theorem ofLittleEndian_encode (n : Nat) : ofLittleEndian (encode n) = n := by
  have value := ofLittleEndian_magnitude (Nat.le_refl n)
  rcases encode_cases n with ⟨zero, written⟩ | ⟨init, top, shape, _, ⟨_, written⟩ | ⟨_, written⟩⟩
  · rw [written, zero, ofLittleEndian]
  · rw [written, ← shape, value]
  · rw [written, ofLittleEndian_append_zero, ← shape, value]

/-- The sign bit of what is written is clear. -/
theorem getLast?_encode_lt {n : Nat} {top : UInt8} (last : (encode n).getLast? = some top) :
    top < 0x80 := by
  rcases encode_cases n with ⟨_, written⟩ | ⟨init, high, _, _, ⟨low, written⟩ | ⟨_, written⟩⟩
  · simp [written] at last
  · rw [written, List.getLast?_concat] at last
    cases last
    exact low
  · rw [written, List.getLast?_concat] at last
    cases last
    decide

/-- A number is read back as it was written. -/
@[simp] theorem decode_encode (n : Nat) : decode (encode n) = n := by
  unfold decode
  cases last : (encode n).getLast? with
  | none =>
    have value := ofLittleEndian_encode n
    rw [List.getLast?_eq_none_iff.1 last, ofLittleEndian] at value
    simp [← value]
  | some top => simp [getLast?_encode_lt last, ofLittleEndian_encode]

theorem encode_injective {n k : Nat} (same : encode n = encode k) : n = k := by
  rw [← ofLittleEndian_encode n, same, ofLittleEndian_encode]

/-- The last byte of what is written leaves its top bit free, and no byte is written in vain. -/
theorem encode_bounds {n : Nat} (some : n ≠ 0) :
    ∃ size, (encode n).length = size + 1 ∧ n < 0x80 * 256 ^ size ∧ 0x80 * 256 ^ size ≤ 256 * n := by
  rcases encode_cases n with ⟨zero, -⟩ | ⟨init, top, shape, nonzero, cases⟩
  · exact absurd zero some
  have value : n = ofLittleEndian init + top.toNat * 256 ^ init.length := by
    rw [← ofLittleEndian_append_singleton, ← shape, ofLittleEndian_magnitude (Nat.le_refl n)]
  have below := ofLittleEndian_lt init
  rcases cases with ⟨low, written⟩ | ⟨high, written⟩
  · have most : top.toNat + 1 ≤ 0x80 := UInt8.lt_iff_toNat_lt.1 low
    have least : 1 ≤ top.toNat := Nat.pos_of_ne_zero fun zero => nonzero (UInt8.toNat_inj.1 zero)
    have upper := Nat.mul_le_mul_right (256 ^ init.length) most
    have lower := Nat.mul_le_mul_right (256 ^ init.length) least
    rw [Nat.succ_mul] at upper
    exact ⟨init.length, by simp [written], by omega, by omega⟩
  · have least : 0x80 ≤ top.toNat := Nat.le_of_not_lt fun low => high (UInt8.lt_iff_toNat_lt.2 low)
    have most := top.toNat_lt
    have upper := Nat.mul_le_mul_right (256 ^ init.length) most
    have lower := Nat.mul_le_mul_right (256 ^ init.length) least
    rw [Nat.succ_mul] at upper
    exact ⟨init.length + 1, by simp [written], by omega, by omega⟩

/-- A number takes no more than `size + 1` bytes if it leaves the top bit of the last of them
free. -/
theorem length_encode_le_iff {n size : Nat} :
    (encode n).length ≤ size + 1 ↔ n < 0x80 * 256 ^ size := by
  by_cases zero : n = 0
  · subst zero
    simp [encode, magnitude]
  obtain ⟨taken, length, upper, lower⟩ := encode_bounds zero
  rw [length, Nat.succ_le_succ_iff]
  constructor
  · intro short
    have grows := Nat.pow_le_pow_right (n := 256) (by decide) short
    omega
  · intro small
    by_contra long
    have grows := Nat.pow_le_pow_right (n := 256) (by decide) (Nat.lt_of_not_le long)
    rw [Nat.succ_eq_add_one, Nat.pow_succ] at grows
    omega

theorem length_encode_le {n : Nat} (small : n < 2 ^ 32) : (encode n).length ≤ 5 :=
  length_encode_le_iff.2 (by omega)

/-! ## Minimal forms -/

theorem isMinimal_singleton (top : UInt8) : isMinimal [top] = true ↔ top ≠ 0 ∧ top ≠ 0x80 := by
  simp [isMinimal, and_7F_eq_zero_iff]

theorem isMinimal_concat_concat (init : Bytes) (second top : UInt8) :
    isMinimal (init ++ [second] ++ [top]) = true ↔
      (top ≠ 0 ∧ top ≠ 0x80) ∨ ¬ second < 0x80 := by
  simp [isMinimal, and_7F_eq_zero_iff, and_80_eq_zero_iff]

/-- What is written is minimal. -/
theorem isMinimal_encode (n : Nat) : isMinimal (encode n) = true := by
  rcases encode_cases n with
    ⟨_, written⟩ | ⟨init, top, _, nonzero, ⟨low, written⟩ | ⟨high, written⟩⟩
  · rw [written]
    rfl
  · have notSign : top ≠ 0x80 := by
      rintro rfl
      exact absurd low (by decide)
    rw [written]
    rcases List.eq_nil_or_concat init with rfl | ⟨front, second, rfl⟩
    · exact (isMinimal_singleton top).2 ⟨nonzero, notSign⟩
    · rw [List.concat_eq_append]
      exact (isMinimal_concat_concat front second top).2 (.inl ⟨nonzero, notSign⟩)
  · rw [written]
    exact (isMinimal_concat_concat init top 0).2 (.inr high)

/-- A minimal form with a clear sign bit is the one that is written. -/
theorem encode_ofLittleEndian {init : Bytes} {top : UInt8} (low : top < 0x80)
    (minimal : isMinimal (init ++ [top]) = true) :
    encode (ofLittleEndian (init ++ [top])) = init ++ [top] := by
  by_cases zero : top = 0
  · -- the byte before a zero on top has its top bit set, or the zero would not be needed
    subst zero
    rcases List.eq_nil_or_concat init with rfl | ⟨front, second, rfl⟩
    · simp [isMinimal] at minimal
    · rw [List.concat_eq_append] at minimal ⊢
      have high : ¬ second < 0x80 := by
        rcases (isMinimal_concat_concat front second 0).1 minimal with ⟨nonzero, _⟩ | high
        · exact absurd rfl nonzero
        · exact high
      have nonzero : second ≠ 0 := by
        rintro rfl
        exact high (by decide)
      rw [ofLittleEndian_append_zero]
      have last : (front ++ [second]).getLast? ≠ some 0 := by simpa using nonzero
      have shape := magnitude_ofLittleEndian last (Nat.le_refl _)
      simp [encode, shape, high]
  · have last : (init ++ [top]).getLast? ≠ some 0 := by simpa using zero
    have shape := magnitude_ofLittleEndian last (Nat.le_refl _)
    simp [encode, shape, low]

/-- A minimal form of a number that is not negative is the one that is written. -/
theorem encode_of_isMinimal {data : Bytes} {n : Nat} (minimal : isMinimal data = true)
    (value : decode data = n) : encode n = data := by
  rcases List.eq_nil_or_concat data with rfl | ⟨init, top, rfl⟩
  · have zero : n = 0 := by simpa [decode] using value.symm
    subst zero
    rfl
  · rw [List.concat_eq_append] at minimal value ⊢
    by_cases low : top < 0x80
    · have same : ofLittleEndian (init ++ [top]) = n := by
        simpa [decode, low] using value
      rw [← same]
      exact encode_ofLittleEndian low minimal
    · -- with the sign bit set the number is below 0, or a zero that is not minimal
      exfalso
      have signed := value
      simp only [decode, List.getLast?_concat, low, if_false, List.length_append,
        List.length_singleton, Nat.add_sub_cancel, ofLittleEndian_append_singleton] at signed
      have topSize : 0x80 ≤ top.toNat := by
        have := UInt8.not_lt.1 low
        simpa [UInt8.le_iff_toNat_le] using this
      have power : 0 < 256 ^ init.length := Nat.pow_pos (by omega)
      have grown : 0x80 * 256 ^ init.length ≤ top.toNat * 256 ^ init.length :=
        Nat.mul_le_mul_right _ topSize
      rw [shiftLeft_bytes] at signed
      have lowZero : ofLittleEndian init = 0 := by omega
      have topSign : top.toNat * 256 ^ init.length = 0x80 * 256 ^ init.length := by omega
      have isSign : top = 0x80 := UInt8.toNat_inj.1 (Nat.eq_of_mul_eq_mul_right power topSign)
      subst isSign
      rcases List.eq_nil_or_concat init with rfl | ⟨front, second, rfl⟩
      · exact ((isMinimal_singleton 0x80).1 minimal).2 rfl
      · rw [List.concat_eq_append] at minimal lowZero
        rw [ofLittleEndian_append_singleton] at lowZero
        have secondZero : second.toNat = 0 := by
          have positive : 0 < 256 ^ front.length := Nat.pow_pos (by omega)
          rcases Nat.mul_eq_zero.1 (by omega : second.toNat * 256 ^ front.length = 0) with h | h
          · exact h
          · omega
        rcases (isMinimal_concat_concat front second 0x80).1 minimal with ⟨_, notSign⟩ | high
        · exact notSign rfl
        · exact high (by simp [UInt8.lt_iff_toNat_lt, secondZero])

end LockScript.ScriptNumber
