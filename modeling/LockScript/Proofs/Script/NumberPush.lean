import LockScript.Proofs.Fragment.Size

/-!
Pushes of numbers.

The numbers up to 16 have opcodes of their own. All others are pushed as data, and the data grows by
a byte wherever a number would reach the sign bit; the largest lock times take five bytes. What is
emitted, the size that is counted for it and what is read back agree for every number below 2³²: a
readable instruction on its own is one element (`ReadAs.elements`) and is read as its symbols
(`lex_bytes_alone`), and a script that is read as a single number was emitted for it
(`eq_bytes_of_lex_number`).
-/

namespace LockScript

/-! ## One instruction as a script -/

/-- An instruction on its own is one element, at the start of the script. -/
theorem Instruction.ReadAs.elements {i : Instruction} {opcode : UInt8} {data : Bytes}
    (read : i.ReadAs opcode data) : Script.elements i.bytes = .cons ⟨0, opcode, data⟩ .done := by
  have push := read.push []
  rw [List.append_nil] at push
  rw [Script.elements, read.bytes, List.length_cons, Script.elementsFrom, push]
  simp [Script.elementsFrom]

namespace Token

/-- A readable instruction on its own is read as its symbols, all at the start of the script. -/
theorem lex_bytes_alone {i : Instruction} (readable : i.Readable) :
    lex i.bytes = .ok (i.symbols.reverse.map (⟨·, 0⟩)) := by
  obtain ⟨opcode, data, read⟩ := Instruction.exists_readAs readable
  have symbols := read.symbols none 0 fun _ o previous => by cases previous
  rw [lex, read.elements, lexOnto, List.head?_nil, Option.map_none, symbols]
  simp [lexOnto]

end Token

/-! ## Numbers -/

namespace Instruction

/-- The number of a token has a push that can be read. -/
theorem readable_toNat (n : UInt32) : (number n.toNat).Readable := n.toNat_lt

theorem symbols_toNat (n : UInt32) : (number n.toNat).symbols = [.number n] := by
  simp [symbols]

/-- What is counted for the number of a token is the length of its push. -/
theorem length_bytes_toNat (n : UInt32) :
    ((number n.toNat).bytes.length : Int) = Cost.numberSize n.toNat := by
  have small := n.toNat_lt
  exact length_bytes_number (by omega)

end Instruction

/-- There is always room for a number in an empty script. -/
theorem Script.assemble_number (n : UInt32) :
    assemble [.number n.toNat] = .ok (Instruction.number n.toNat).bytes := by
  have size := Instruction.length_bytes_toNat n
  have most : Cost.numberSize n.toNat ≤ 6 := by
    unfold Cost.numberSize
    split_ifs <;> decide
  have room : maxSize = 10000 := rfl
  refine assemble_eq_ok_iff.2 ⟨List.forall_mem_singleton.2 rfl, ?_, by omega⟩
  rw [List.flatMap_singleton]

namespace Token

/-- A number is read back from its push. -/
theorem lex_bytes_number (n : UInt32) :
    lex (Instruction.number n.toNat).bytes = .ok [⟨.number n, 0⟩] := by
  rw [lex_bytes_alone (Instruction.readable_toNat n), Instruction.symbols_toNat]
  rfl

/-- Only the push of a number is read as the number and nothing else. -/
theorem eq_bytes_of_lex_number {script : Bytes} {n : UInt32} {offset : Nat}
    (lexed : lex script = .ok [⟨.number n, offset⟩]) :
    script = (Instruction.number n.toNat).bytes := by
  obtain ⟨is, readable, fused, rfl, symbols⟩ := exists_instructions_of_lex lexed
  have same : is.flatMap Instruction.symbols
      = [Instruction.number n.toNat].flatMap Instruction.symbols := by
    rw [List.flatMap_singleton, Instruction.symbols_toNat, ← List.reverse_inj, ← symbols]
    rfl
  have bytes := Script.bytes_eq_of_symbols_eq readable
    (List.forall_mem_singleton.2 (Instruction.readable_toNat n)) fused (List.isChain_singleton _)
    same
  rwa [List.flatMap_singleton] at bytes

/-- Numbers survive their push at every size. What is emitted for a number has the length that is
counted for it, is one opcode with its data and is read as this number alone; and no other script
is, of one opcode or of more. -/
theorem lex_number_exact (n : UInt32) :
    ∃ push, Script.assemble [.number n.toNat] = .ok push ∧
      (push.length : Int) = Cost.numberSize n.toNat ∧
      (∃ e, Script.elements push = .cons e .done) ∧
      ∀ script offset, lex script = .ok [⟨.number n, offset⟩] ↔ script = push ∧ offset = 0 := by
  obtain ⟨opcode, data, read⟩ := Instruction.exists_readAs (Instruction.readable_toNat n)
  refine ⟨(Instruction.number n.toNat).bytes, Script.assemble_number n,
    Instruction.length_bytes_toNat n, ⟨_, read.elements⟩, fun script offset => ?_⟩
  constructor
  · intro lexed
    obtain rfl := eq_bytes_of_lex_number lexed
    rw [lex_bytes_number] at lexed
    cases lexed
    exact ⟨rfl, rfl⟩
  · rintro ⟨rfl, rfl⟩
    exact lex_bytes_number n

-- the last number of each size and the first of the next
example : [16, 17, 127, 128, 0x7FFF, 0x8000, 0x7FFFFF, 0x800000, 0x7FFFFFFF, 0x80000000].map
    (fun n => (Instruction.number n).bytes.length) = [1, 2, 2, 3, 3, 4, 4, 5, 5, 6] := by
  decide +kernel

end Token

end LockScript
