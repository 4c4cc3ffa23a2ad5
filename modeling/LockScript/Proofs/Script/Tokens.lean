import LockScript.Proofs.Script.Lexing

/-!
What the tokens of a script keep of it.

Each element of a script that can be taken apart is one readable instruction. It stands where the
elements before it end, and its tokens are the symbols of the instruction, all at its offset; in the
order of the script they are what `lex` gives in reverse (`Reads`). The script itself can be told
from the symbols alone.
-/

namespace LockScript.Token

/-- How bytes that begin at `offset` are taken apart: into elements, and into tokens in the order of
the script. -/
inductive Reads : (offset : Nat) → Bytes → Script.Elements → List Token → Prop
  | done (offset : Nat) : Reads offset [] .done []
  | cons {offset : Nat} {e : Script.Element} {i : Instruction} {rest : Bytes}
    {elements : Script.Elements} {tokens : List Token} (readable : i.Readable)
    (starts : e.offset = offset) (spelled : i.bytes = e.opcode :: e.data)
    (later : Reads (offset + i.bytes.length) rest elements tokens) :
    Reads offset (i.bytes ++ rest) (.cons e elements) (i.symbols.map (⟨·, offset⟩) ++ tokens)

/-- The tokens that are put in front of those before are the ones of the script, in reverse. -/
theorem reads_of_lexOnto {bound offset : Nat} {script : Bytes} {before tokens : List Token}
    (room : script.length ≤ bound)
    (lexed : lexOnto before (Script.elementsFrom bound offset script) = .ok tokens) :
    ∃ later, tokens = later.reverse ++ before ∧
      Reads offset script (Script.elementsFrom bound offset script) later := by
  induction bound generalizing offset script before with
  | zero =>
    obtain rfl : script = [] := List.length_eq_zero_iff.1 (Nat.le_zero.1 room)
    cases lexed
    exact ⟨[], rfl, .done offset⟩
  | succ bound ih =>
    cases script with
    | nil =>
      cases lexed
      exact ⟨[], rfl, .done offset⟩
    | cons opcode rest =>
      rw [Script.elementsFrom] at lexed ⊢
      cases pushed : Script.pushOf opcode rest with
      | error fault =>
        rw [pushed] at lexed
        cases lexed
      | ok push =>
        simp only [pushed, lexOnto] at lexed ⊢
        cases read : symbolsOf (before.head?.map symbol) ⟨offset, opcode, push.data⟩ with
        | error cause =>
          rw [read] at lexed
          cases lexed
        | ok found =>
          simp only [read] at lexed
          obtain ⟨i, readable, -, symbols, bytes, width, data, split⟩ :=
            Instruction.exists_of_symbolsOf pushed read
          have size : offset + i.bytes.length = offset + 1 + push.data.length := by
            rw [bytes, List.length_cons]
            omega
          have whole : opcode :: rest = i.bytes ++ data := by rw [bytes, List.cons_append, split]
          rw [width, Nat.zero_add, ← split, List.drop_left, ← size] at lexed ⊢
          rw [whole, List.length_append, bytes, List.length_cons] at room
          obtain ⟨later, ends, reads⟩ := ih (by omega) lexed
          refine ⟨i.symbols.map (⟨·, offset⟩) ++ later, ?_, ?_⟩
          · rw [ends, ← symbols, List.map_reverse, List.reverse_append, List.append_assoc]
          · rw [split, whole]
            exact .cons readable rfl bytes reads

theorem reads_of_lex {script : Bytes} {tokens : List Token} (lexed : lex script = .ok tokens) :
    Reads 0 script (Script.elements script) tokens.reverse := by
  obtain ⟨later, same, reads⟩ := reads_of_lexOnto (Nat.le_refl _) lexed
  rw [same, List.append_nil, List.reverse_reverse]
  exact reads

/-- Taking a script apart loses nothing: the tokens are those of its elements in reverse, each at
the offset of the element it is from, and no other script has the same symbols. -/
theorem lex_loses_nothing {script : Bytes} {tokens : List Token}
    (lexed : lex script = .ok tokens) :
    Reads 0 script (Script.elements script) tokens.reverse ∧
      ∀ script' tokens', lex script' = .ok tokens' →
        tokens'.map symbol = tokens.map symbol → script' = script := by
  refine ⟨reads_of_lex lexed, fun script' tokens' lexed' same => ?_⟩
  obtain ⟨is, readable, fused, rfl, symbols⟩ := exists_instructions_of_lex lexed
  obtain ⟨is', readable', fused', rfl, symbols'⟩ := exists_instructions_of_lex lexed'
  rw [symbols, symbols', List.reverse_inj] at same
  exact Script.bytes_eq_of_symbols_eq readable' readable fused' fused same

/-- SIZE 32 EQUALVERIFY: three elements at the offsets 0, 1 and 3, the last of two tokens. -/
def sizeCheck : Bytes := [0x82, 0x01, 0x20, 0x88]

theorem lex_loses_nothing_sizeCheck :
    lex sizeCheck = .ok [⟨.op .verify, 3⟩, ⟨.op .equal, 3⟩, ⟨.number 32, 1⟩, ⟨.op .size, 0⟩] ∧
      Reads 0 sizeCheck (Script.elements sizeCheck)
        [⟨.op .size, 0⟩, ⟨.number 32, 1⟩, ⟨.op .equal, 3⟩, ⟨.op .verify, 3⟩] ∧
      ∀ script' tokens', lex script' = .ok tokens' →
        tokens'.map symbol = [.op .verify, .op .equal, .number 32, .op .size] →
        script' = sizeCheck := by
  have lexed : lex sizeCheck
      = .ok [⟨.op .verify, 3⟩, ⟨.op .equal, 3⟩, ⟨.number 32, 1⟩, ⟨.op .size, 0⟩] := by rfl
  exact ⟨lexed, lex_loses_nothing lexed⟩

end LockScript.Token
