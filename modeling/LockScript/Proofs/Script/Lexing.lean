import LockScript.Script.Instruction
import LockScript.Script.Token
import LockScript.Proofs.Script.Number
import LockScript.Proofs.Script.Words
import Mathlib.Data.List.Chain

/-!
Scripts, instructions and tokens.

The scripts that can be taken apart into tokens are exactly the bytes of instructions that are
readable, which means that every push has a meaning, and in which no VERIFY follows an opcode that
could have taken it in. `lex_bytes` is the one direction and `exists_instructions_of_lex` the other.
As the symbols of such instructions determine their bytes (`bytes_eq_of_symbols_eq`), no two scripts
have the same tokens.
-/

namespace LockScript

/-! ## Readable instructions -/

/-- The bytes below the first opcode are those of pushes. -/
theorem Opcode.ofCode?_eq_none {b : UInt8} (low : b.toNat < 0x63) : Opcode.ofCode? b = none := by
  rw [Opcode.ofCode?, List.find?_eq_none]
  intro o _ same
  have value := congrArg UInt8.toNat (of_decide_eq_true same)
  cases o <;> simp [Opcode.code] at value <;> omega

/-- The symbol of data that is no number. -/
def Symbol.ofData? (d : Bytes) : Option Symbol :=
  if h : d.length = 20 then some (.push20 ⟨d, h⟩)
  else if h : d.length = 32 then some (.push32 ⟨d, h⟩)
  else if h : d.length = 33 then some (.push33 ⟨d, h⟩)
  else none

namespace Instruction

/-- What an instruction says as symbols. -/
def symbols : Instruction → List Symbol
  | .op o => o.simpler.map .op
  | .bit b => [.number (if b then 1 else 0)]
  | .number n => [.number (UInt32.ofNat n)]
  | .data d => (Symbol.ofData? d).toList
  | .key (.point p) => [.push33 ⟨p.bytes, p.length_bytes⟩]
  | .key (.named _) => []

/-- Instructions whose pushes are numbers below 2³², hashes or keys. -/
def Readable : Instruction → Prop
  | .number n => n < 2 ^ 32
  | .data d => d.length = 20 ∨ d.length = 32 ∨ d.length = 33
  | .key k => ∃ p, k = .point p
  | _ => True

@[simp] theorem readable_op (o : Opcode) : (op o).Readable := trivial

@[simp] theorem readable_number {n : Nat} : (number n).Readable ↔ n < 2 ^ 32 := Iff.rfl

/-- Whether the second instruction may stand after the first: a VERIFY may not where the first could
take it in. -/
def MayPrecede (i j : Instruction) : Prop :=
  j = .op .verify → ∀ o, i = .op o → o.verifyForm? = none

/-- Whether an instruction may stand after a symbol. -/
def MayFollow (previous : Option Symbol) (j : Instruction) : Prop :=
  j = .op .verify → ∀ o, previous = some (.op o) → o.verifyForm? = none

/-- The words of an instruction have the same symbols. -/
theorem flatMap_symbols_simpler (i : Instruction) : i.simpler.flatMap symbols = i.symbols := by
  cases i with
  | op o => cases o <;> rfl
  | key k => cases k <;> rfl
  | bit b => rfl
  | number n => rfl
  | data d => simp [simpler]

theorem readable_simpler_iff (i : Instruction) : (∀ w ∈ i.simpler, w.Readable) ↔ i.Readable := by
  cases i <;> simp [simpler, Readable]

theorem symbols_data {d : Bytes} (size : d.length = 20 ∨ d.length = 32 ∨ d.length = 33) :
    ∃ s, Token.ofPush d = .ok s ∧ symbols (.data d) = [s] := by
  rcases size with size | size | size <;> simp [Token.ofPush, symbols, Symbol.ofData?, size]

/-- The last symbol of an instruction could take in a VERIFY only if the instruction could. -/
theorem mayFollow_of_mayPrecede {i j : Instruction} (fused : i.MayPrecede j) (before : List Symbol)
    (readable : i.Readable) : j.MayFollow (i.symbols.reverse ++ before).head? := by
  intro verify o last
  cases i with
  | op p =>
    have form := fused verify p rfl
    cases p <;>
      simp_all [symbols, Opcode.simpler, Opcode.verifyForm?] <;> subst last <;> rfl
  | bit b => simp [symbols] at last
  | number n => simp [symbols] at last
  | data d =>
    obtain ⟨s, pushed, single⟩ := symbols_data readable
    rw [single] at last
    rcases readable with size | size | size <;>
      · simp [Token.ofPush, size] at pushed
        simp [← pushed] at last
  | key k =>
    obtain ⟨p, rfl⟩ := readable
    simp [symbols] at last

theorem mayPrecede_of_mayFollow {i j : Instruction} (before : List Symbol)
    (follow : j.MayFollow (i.symbols.reverse ++ before).head?) : i.MayPrecede j := by
  rintro verify o rfl
  cases form : o.verifyForm? with
  | none => rfl
  | some p =>
    have last : ((Instruction.op o).symbols.reverse ++ before).head? = some (.op o) := by
      cases o <;> simp_all [Opcode.verifyForm?, symbols, Opcode.simpler]
    rw [← form]
    exact follow verify o last

/-! ## One element -/

/-- A short push that has no opcode of its own is read as a number. -/
theorem ofPush_eq_ofNumber {d : Bytes} (short : d.length ≤ 5)
    (notSmall : ∀ b, d = [b] → ¬ b ≤ 16) : Token.ofPush d = Token.ofNumber d := by
  have odd (k : Nat) (long : 5 < k) : d.length ≠ k := by omega
  have room : ¬ d.length > Token.maxNumberLength := Nat.not_lt.2 short
  rw [Token.ofPush, dif_neg (odd 20 (by omega)), dif_neg (odd 32 (by omega)),
    dif_neg (odd 33 (by omega)), if_neg room]
  match d with
  | [] => rfl
  | [b] => exact if_neg (notSmall b rfl)
  | _ :: _ :: _ => rfl

/-- A number above 16 is read back from its push. -/
theorem ofPush_encode {n : Nat} (large : 16 < n) (small : n < 2 ^ 32) :
    Token.ofPush (ScriptNumber.encode n) = .ok (.number (UInt32.ofNat n)) := by
  rw [ofPush_eq_ofNumber (ScriptNumber.length_encode_le small)]
  · have range : ¬ ((n : Int) < 0 ∨ (n : Int) ≥ 2 ^ 32) := by omega
    rw [Token.ofNumber, ScriptNumber.isMinimal_encode, ScriptNumber.decode_encode]
    exact if_neg range
  · intro b single
    have value := ScriptNumber.ofLittleEndian_encode n
    rw [single] at value
    simp only [ScriptNumber.ofLittleEndian, Nat.mul_zero, Nat.add_zero] at value
    rw [UInt8.le_iff_toNat_le, value]
    simpa using large

/-- The bytes of an instruction are one element, of which the symbols of the instruction are
read. -/
structure ReadAs (i : Instruction) (opcode : UInt8) (data : Bytes) : Prop where
  bytes : i.bytes = opcode :: data
  push (rest : Bytes) : Script.pushOf opcode (data ++ rest) = .ok ⟨0, data⟩
  symbols (previous : Option Symbol) (offset : Nat) :
    i.MayFollow previous → Token.symbolsOf previous ⟨offset, opcode, data⟩ = .ok i.symbols

/-- The element of a direct push. -/
theorem readAs_push {i : Instruction} {d : Bytes} {s : Symbol} (bytes : i.bytes = pushBytes d)
    (short : d.length ≤ 0x4B) (some : d ≠ [])
    (pushed : Token.ofPush d = .ok s) (single : i.symbols = [s]) :
    i.ReadAs (UInt8.ofNat d.length) d := by
  have positive : 0 < d.length := List.length_pos_iff.2 some
  have size : (UInt8.ofNat d.length).toNat = d.length := by
    rw [UInt8.toNat_ofNat']
    omega
  refine ⟨bytes, fun rest => ?_, fun previous offset follow => ?_⟩
  · have direct : ¬ (d.length = 0 ∨ d.length > 0x4E) := by omega
    rw [Script.pushOf, size, if_neg direct, if_pos short]
    simp
  · have noOpcode : Opcode.ofCode? (UInt8.ofNat d.length) = none :=
      Opcode.ofCode?_eq_none (by omega)
    have notSmall : ¬ (0x51 ≤ d.length ∧ d.length ≤ 0x60) := by omega
    simp [Token.symbolsOf, noOpcode, size, Nat.ne_of_gt positive, notSmall, short, pushed, single,
      Except.map]

/-- The element of a number that has an opcode of its own. -/
theorem readAs_small {i : Instruction} {n : Nat} (small : n ≤ 16) (bytes : i.bytes = numberBytes n)
    (single : i.symbols = [.number (UInt32.ofNat n)]) :
    ∃ opcode, i.ReadAs opcode [] := by
  by_cases zero : n = 0
  · subst zero
    refine ⟨0, ?_, fun rest => by simp [Script.pushOf], fun previous offset follow => ?_⟩
    · simp [bytes, numberBytes]
    · simp [Token.symbolsOf, single, Opcode.ofCode?, Opcode.all, Opcode.code]
  · have size : (UInt8.ofNat (0x50 + n)).toNat = 0x50 + n := by
      rw [UInt8.toNat_ofNat']
      omega
    refine ⟨UInt8.ofNat (0x50 + n), ?_, fun rest => ?_, fun previous offset follow => ?_⟩
    · simp [bytes, numberBytes, zero, small]
    · have notPush : 0x50 + n = 0 ∨ 0x50 + n > 0x4E := by omega
      simp only [Script.pushOf, size, notPush, if_true]
    · have noOpcode : Opcode.ofCode? (UInt8.ofNat (0x50 + n)) = none :=
        Opcode.ofCode?_eq_none (by omega)
      have nonzero : ¬ 0x50 + n = 0 := by omega
      have range : 0x51 ≤ 0x50 + n ∧ 0x50 + n ≤ 0x60 := by omega
      simp only [Token.symbolsOf, noOpcode, size, nonzero, range, if_false, if_true, and_self,
        Nat.add_sub_cancel_left, single]

/-- Every readable instruction is one element. -/
theorem exists_readAs {i : Instruction} (readable : i.Readable) :
    ∃ opcode data, i.ReadAs opcode data := by
  cases i with
  | op o =>
    refine ⟨o.code, [], rfl, fun rest => ?_, fun previous offset follow => ?_⟩
    · cases o <;> simp [Script.pushOf, Opcode.code]
    · simp only [Token.symbolsOf, Opcode.ofCode?_code]
      split
      · next before =>
        have form := follow rfl before rfl
        simp [form, symbols, Opcode.simpler]
      · rfl
  | bit b =>
    obtain ⟨opcode, read⟩ := readAs_small (i := .bit b) (n := if b then 1 else 0)
      (by cases b <;> simp) (by cases b <;> rfl) (by cases b <;> rfl)
    exact ⟨opcode, [], read⟩
  | number n =>
    by_cases small : n ≤ 16
    · obtain ⟨opcode, read⟩ := readAs_small (i := .number n) small rfl rfl
      exact ⟨opcode, [], read⟩
    · have nonempty : ScriptNumber.encode n ≠ [] := by
        intro empty
        have value := ScriptNumber.ofLittleEndian_encode n
        rw [empty, ScriptNumber.ofLittleEndian] at value
        omega
      have short := ScriptNumber.length_encode_le readable
      have zero : n ≠ 0 := by omega
      exact ⟨_, _, readAs_push (i := .number n) (by simp [bytes, numberBytes, zero, small])
        (by omega) nonempty (ofPush_encode (by omega) readable) rfl⟩
  | data d =>
    obtain ⟨s, pushed, single⟩ := symbols_data readable
    have size : d.length ≤ 0x4B ∧ d ≠ [] := by
      constructor
      · rcases readable with size | size | size <;> omega
      · rintro rfl
        rcases readable with size | size | size <;> simp at size
    exact ⟨_, _, readAs_push rfl size.1 size.2 pushed single⟩
  | key k =>
    obtain ⟨p, rfl⟩ := readable
    have size := p.length_bytes
    have nonempty : p.bytes ≠ [] := by
      intro empty
      simp [empty] at size
    exact ⟨_, _, readAs_push rfl (by omega) nonempty (by simp [Token.ofPush]) rfl⟩

/-- A push that is no hash or key is read as a number. -/
theorem ofNumber_of_ofPush {d : Bytes} {s : Symbol}
    (odd : ¬ (d.length = 20 ∨ d.length = 32 ∨ d.length = 33)) (pushed : Token.ofPush d = .ok s) :
    Token.ofNumber d = .ok s ∧ ∀ b, d = [b] → ¬ b ≤ 16 := by
  obtain ⟨not20, not32, not33⟩ : d.length ≠ 20 ∧ d.length ≠ 32 ∧ d.length ≠ 33 := by omega
  rw [Token.ofPush, dif_neg not20, dif_neg not32, dif_neg not33] at pushed
  split at pushed
  · cases pushed
  · match d with
    | [] => exact ⟨pushed, by simp⟩
    | [b] =>
      dsimp only at pushed
      split at pushed
      · cases pushed
      · next large => exact ⟨pushed, fun c same => by cases same; exact large⟩
    | _ :: _ :: _ => exact ⟨pushed, by simp⟩

/-- The numbers with opcodes of their own would be pushed as no or one byte. -/
theorem encode_small {n : Nat} (small : n ≤ 16) :
    ScriptNumber.encode n = [] ∨ ∃ b, ScriptNumber.encode n = [b] ∧ b ≤ 16 := by
  have all : ∀ m : Fin 17, ScriptNumber.encode m = []
      ∨ ScriptNumber.encode m = [UInt8.ofNat m] ∧ UInt8.ofNat m ≤ 16 := by decide
  rcases all ⟨n, by omega⟩ with empty | single
  · exact .inl empty
  · exact .inr ⟨_, single⟩

/-- The instruction that a direct push is read as. -/
theorem exists_of_ofPush {d : Bytes} {s : Symbol} (some : d ≠ [])
    (pushed : Token.ofPush d = .ok s) :
    ∃ i : Instruction, i.Readable ∧ i ≠ .op .verify ∧ i.symbols = [s] ∧ i.bytes = pushBytes d := by
  by_cases sized : d.length = 20 ∨ d.length = 32 ∨ d.length = 33
  · obtain ⟨s', same, single⟩ := symbols_data sized
    rw [same] at pushed
    cases pushed
    exact ⟨.data d, sized, by simp, single, rfl⟩
  · obtain ⟨number, notSmall⟩ := ofNumber_of_ofPush sized pushed
    unfold Token.ofNumber at number
    split at number
    · cases number
    · next minimal =>
      dsimp only at number
      split at number
      · cases number
      · next range =>
        cases number
        obtain ⟨n, value⟩ : ∃ n : Nat, ScriptNumber.decode d = n :=
          ⟨(ScriptNumber.decode d).toNat, by omega⟩
        have written : ScriptNumber.encode n = d :=
          ScriptNumber.encode_of_isMinimal (by simpa using minimal) value
        have large : ¬ n ≤ 16 := by
          intro small
          rcases encode_small small with empty | ⟨b, single, low⟩
          · exact some (written.symm.trans empty)
          · exact notSmall b (written.symm.trans single) low
        have nonzero : n ≠ 0 := by omega
        refine ⟨.number n, ?_, by simp, by simp [symbols, value], ?_⟩
        · show n < 2 ^ 32
          omega
        · simp only [bytes, numberBytes, nonzero, large, if_false, written]

/-- An opcode pushes nothing, and is read as what it stands for where it may stand. -/
theorem symbols_of_symbolsOf_code {previous : Option Symbol} {o : Opcode} {rest : Bytes}
    {push : Script.Push} {offset : Nat} {found : List Symbol}
    (pushed : Script.pushOf o.code rest = .ok push)
    (read : Token.symbolsOf previous ⟨offset, o.code, push.data⟩ = .ok found) :
    push = ⟨0, []⟩ ∧ (op o).MayFollow previous ∧ (op o).symbols = found := by
  have none : Script.pushOf o.code rest = .ok ⟨0, []⟩ := by
    cases o <;> simp [Script.pushOf, Opcode.code]
  rw [none] at pushed
  cases pushed
  simp only [Token.symbolsOf, Opcode.ofCode?_code] at read
  refine ⟨rfl, ?_, ?_⟩
  · rintro ⟨⟩ before rfl
    by_contra form
    have formed : before.verifyForm?.isSome := Option.isSome_iff_ne_none.2 form
    simp [formed] at read
  · split at read
    · split at read
      · cases read
      · cases read
        rfl
    · cases read
      rfl

/-- The opcodes of the numbers from 1 to 16 push nothing and are those of the numbers. -/
theorem bytes_number_of_pushOf {opcode : UInt8} {rest : Bytes} {push : Script.Push}
    (range : 0x51 ≤ opcode.toNat ∧ opcode.toNat ≤ 0x60)
    (pushed : Script.pushOf opcode rest = .ok push) :
    push = ⟨0, []⟩ ∧ (number (opcode.toNat - 0x50)).bytes = [opcode] := by
  have notPush : opcode.toNat = 0 ∨ opcode.toNat > 0x4E := by omega
  rw [Script.pushOf, if_pos notPush] at pushed
  cases pushed
  have restored : UInt8.ofNat (0x50 + (opcode.toNat - 0x50)) = opcode := by
    apply UInt8.toNat_inj.1
    rw [UInt8.toNat_ofNat']
    omega
  have positive : opcode.toNat - 0x50 ≠ 0 := by omega
  have small : opcode.toNat - 0x50 ≤ 16 := by omega
  exact ⟨rfl, by simp only [bytes, numberBytes, positive, small, if_false, if_true, restored]⟩

/-- A direct push takes as many bytes as its opcode says. -/
theorem pushBytes_of_pushOf {opcode : UInt8} {rest : Bytes} {push : Script.Push}
    (some : opcode.toNat ≠ 0) (direct : opcode.toNat ≤ 0x4B)
    (pushed : Script.pushOf opcode rest = .ok push) :
    push.data ≠ [] ∧ pushBytes push.data = opcode :: push.data ∧ push.width = 0 ∧
      push.data <+: rest := by
  have notPush : ¬ (opcode.toNat = 0 ∨ opcode.toNat > 0x4E) := by omega
  rw [Script.pushOf, if_neg notPush, if_pos direct] at pushed
  dsimp only at pushed
  split at pushed
  · cases pushed
  · next long =>
    cases pushed
    have size : (rest.take opcode.toNat).length = opcode.toNat := by
      rw [List.length_take] at long ⊢
      omega
    refine ⟨fun empty => some ?_, ?_, rfl, List.take_prefix _ _⟩
    · rw [← size]
      exact List.length_eq_zero_iff.2 empty
    · rw [pushBytes, size, UInt8.ofNat_toNat]

/-- The instruction that an element is read as. -/
theorem exists_of_symbolsOf {previous : Option Symbol} {opcode : UInt8} {rest : Bytes}
    {push : Script.Push} {offset : Nat} {found : List Symbol}
    (pushed : Script.pushOf opcode rest = .ok push)
    (read : Token.symbolsOf previous ⟨offset, opcode, push.data⟩ = .ok found) :
    ∃ i : Instruction, i.Readable ∧ i.MayFollow previous ∧ i.symbols = found ∧
      i.bytes = opcode :: push.data ∧ push.width = 0 ∧ push.data <+: rest := by
  cases known : Opcode.ofCode? opcode with
  | some o =>
    have same := List.find?_some known
    obtain rfl : o.code = opcode := of_decide_eq_true same
    obtain ⟨rfl, follow, symbols⟩ := symbols_of_symbolsOf_code pushed read
    exact ⟨.op o, trivial, follow, symbols, rfl, rfl, List.nil_prefix⟩
  | none =>
    simp only [Token.symbolsOf, known] at read
    split at read
    · next zero =>
      cases read
      obtain rfl : opcode = 0 := UInt8.toNat_inj.1 zero
      cases pushed
      exact ⟨.number 0, by simp [Readable], by simp [MayFollow], rfl, rfl, rfl, List.nil_prefix⟩
    · next notZero =>
      split at read
      · next range =>
        cases read
        obtain ⟨rfl, bytes⟩ := bytes_number_of_pushOf range pushed
        exact ⟨.number (opcode.toNat - 0x50), by simp only [readable_number]; omega,
          by simp [MayFollow], rfl, bytes, rfl, List.nil_prefix⟩
      · split at read
        · next direct =>
          obtain ⟨nonempty, bytes, width, taken⟩ := pushBytes_of_pushOf notZero direct pushed
          cases single : Token.ofPush push.data with
          | error cause =>
            rw [single] at read
            cases read
          | ok s =>
            rw [single] at read
            cases read
            obtain ⟨i, readable, notVerify, symbols, pushBytes⟩ := exists_of_ofPush nonempty single
            exact ⟨i, readable, fun verify => absurd verify notVerify, symbols,
              pushBytes.trans bytes, width, taken⟩
        · split at read <;> cases read

end Instruction

/-! ## Whole scripts -/

/-- Instructions in which no VERIFY follows an opcode that could have taken it in. -/
def Script.Fused (is : List Instruction) : Prop := is.IsChain Instruction.MayPrecede

namespace Token

/-- Tokens are read one element after the other. -/
theorem lexOnto_cons {before : List Token} {bound offset : Nat} {opcode : UInt8}
    {data rest : Bytes} {found : List Symbol}
    (pushed : Script.pushOf opcode (data ++ rest) = .ok ⟨0, data⟩)
    (read : symbolsOf (before.map symbol).head? ⟨offset, opcode, data⟩ = .ok found) :
    lexOnto before (Script.elementsFrom (bound + 1) offset (opcode :: (data ++ rest)))
      = lexOnto (found.reverse.map (fun s => ⟨s, offset⟩) ++ before)
          (Script.elementsFrom bound (offset + 1 + data.length) rest) := by
  rw [List.head?_map] at read
  simp [Script.elementsFrom, pushed, lexOnto, read]

theorem lexOnto_bytes {is : List Instruction} (readable : ∀ i ∈ is, i.Readable)
    (fused : Script.Fused is) (before : List Token) (bound offset : Nat)
    (first : ∀ j ∈ is.head?, j.MayFollow (before.map symbol).head?)
    (room : (is.flatMap Instruction.bytes).length ≤ bound) :
    ∃ tokens, lexOnto before
          (Script.elementsFrom bound offset (is.flatMap Instruction.bytes)) = .ok tokens ∧
      tokens.map symbol = (is.flatMap Instruction.symbols).reverse ++ before.map symbol := by
  induction is generalizing before bound offset with
  | nil => exact ⟨before, by simp [Script.elementsFrom, lexOnto], by simp⟩
  | cons i rest ih =>
    obtain ⟨opcode, data, read⟩ := Instruction.exists_readAs (readable i (by simp))
    obtain ⟨next, fusedRest⟩ := List.isChain_cons.1 fused
    have symbols := read.symbols _ offset (first i (by simp))
    rw [List.flatMap_cons, read.bytes, List.cons_append] at room ⊢
    cases bound with
    | zero => simp at room
    | succ bound =>
      rw [lexOnto_cons (read.push _) symbols]
      have shape : (i.symbols.reverse.map (fun s => (⟨s, offset⟩ : Token)) ++ before).map symbol
          = i.symbols.reverse ++ before.map symbol := by
        simp [Function.comp_def]
      obtain ⟨tokens, lexed, same⟩ := ih (fun j member => readable j (by simp [member])) fusedRest
        (i.symbols.reverse.map (fun s => ⟨s, offset⟩) ++ before) bound (offset + 1 + data.length)
        (fun j member => by
          rw [shape]
          exact Instruction.mayFollow_of_mayPrecede (next j member) _ (readable i (by simp)))
        (by simp at room ⊢; omega)
      refine ⟨tokens, lexed, ?_⟩
      rw [same, shape]
      simp

/-- The bytes of readable instructions are taken apart into their symbols. -/
theorem lex_bytes {is : List Instruction} (readable : ∀ i ∈ is, i.Readable)
    (fused : Script.Fused is) :
    ∃ tokens, lex (is.flatMap Instruction.bytes) = .ok tokens ∧
      tokens.map symbol = (is.flatMap Instruction.symbols).reverse := by
  obtain ⟨tokens, lexed, same⟩ := lexOnto_bytes readable fused [] _ 0
    (by simp [Instruction.MayFollow]) (Nat.le_refl _)
  exact ⟨tokens, lexed, by simpa using same⟩

theorem exists_instructions_of_lexOnto {bound offset : Nat} {script : Bytes}
    {before tokens : List Token} (room : script.length ≤ bound)
    (lexed : lexOnto before (Script.elementsFrom bound offset script) = .ok tokens) :
    ∃ is : List Instruction, (∀ i ∈ is, i.Readable) ∧ Script.Fused is ∧
      (∀ j ∈ is.head?, j.MayFollow (before.map symbol).head?) ∧
      script = is.flatMap Instruction.bytes ∧
      tokens.map symbol = (is.flatMap Instruction.symbols).reverse ++ before.map symbol := by
  induction bound generalizing offset script before with
  | zero =>
    have empty : script = [] := List.length_eq_zero_iff.1 (by omega)
    subst empty
    simp only [Script.elementsFrom, lexOnto, Except.ok.injEq] at lexed
    exact ⟨[], by simp, .nil, by simp, rfl, by simp [lexed]⟩
  | succ bound ih =>
    cases script with
    | nil =>
      simp only [Script.elementsFrom, lexOnto, Except.ok.injEq] at lexed
      exact ⟨[], by simp, .nil, by simp, rfl, by simp [lexed]⟩
    | cons opcode rest =>
      rw [Script.elementsFrom] at lexed
      cases pushed : Script.pushOf opcode rest with
      | error fault => simp [pushed, lexOnto] at lexed
      | ok push =>
        simp only [pushed, lexOnto] at lexed
        cases read : symbolsOf (before.head?.map symbol) ⟨offset, opcode, push.data⟩ with
        | error cause => simp [read] at lexed
        | ok found =>
          simp only [read] at lexed
          obtain ⟨i, readable, follow, symbols, bytes, width, data, split⟩ :=
            Instruction.exists_of_symbolsOf pushed read
          rw [width, Nat.zero_add, ← split, List.drop_left] at lexed
          obtain ⟨is, readableRest, fused, first, same, tokensEq⟩ := ih
            (by rw [← split] at room; simp at room ⊢; omega) lexed
          have shape : (found.reverse.map (fun s => (⟨s, offset⟩ : Token)) ++ before).map symbol
              = i.symbols.reverse ++ before.map symbol := by
            simp [Function.comp_def, symbols]
          rw [shape] at first tokensEq
          refine ⟨i :: is, ?_, ?_, ?_, ?_, ?_⟩
          · intro j member
            rcases List.mem_cons.1 member with rfl | later
            · exact readable
            · exact readableRest j later
          · exact List.isChain_cons.2 ⟨fun j member =>
              Instruction.mayPrecede_of_mayFollow _ (first j member), fused⟩
          · rintro j ⟨⟩
            rw [List.head?_map]
            exact follow
          · rw [List.flatMap_cons, bytes, List.cons_append, ← same, split]
          · rw [tokensEq]
            simp

/-- What can be taken apart into tokens is the bytes of readable instructions. -/
theorem exists_instructions_of_lex {script : Bytes} {tokens : List Token}
    (lexed : lex script = .ok tokens) :
    ∃ is : List Instruction, (∀ i ∈ is, i.Readable) ∧ Script.Fused is ∧
      script = is.flatMap Instruction.bytes ∧
      tokens.map symbol = (is.flatMap Instruction.symbols).reverse := by
  obtain ⟨is, readable, fused, -, same, tokensEq⟩ :=
    exists_instructions_of_lexOnto (Nat.le_refl _) lexed
  exact ⟨is, readable, fused, same, by simpa using tokensEq⟩

end Token

namespace Instruction

/-- Only opcodes have opcodes for symbols. -/
theorem exists_op_of_symbols {i : Instruction} {o : Opcode} {rest : List Symbol}
    (readable : i.Readable) (begins : i.symbols = .op o :: rest) :
    ∃ p, i = .op p ∧ p.simpler.map Symbol.op = .op o :: rest := by
  cases i with
  | op p => exact ⟨p, rfl, begins⟩
  | bit b => simp [symbols] at begins
  | number n => simp [symbols] at begins
  | data d =>
    rcases readable with size | size | size <;> simp [symbols, Symbol.ofData?, size] at begins
  | key k =>
    obtain ⟨p, rfl⟩ := readable
    simp [symbols] at begins

end Instruction

/-- The bytes of an instruction with a single symbol. -/
def Symbol.bytes : Symbol → Bytes
  | .op o => [o.code]
  | .number n => Instruction.numberBytes n.toNat
  | .push20 d => Instruction.pushBytes d.bytes
  | .push32 d => Instruction.pushBytes d.bytes
  | .push33 d => Instruction.pushBytes d.bytes

namespace Instruction

/-- A readable instruction has one symbol that determines its bytes, or is a VERIFY form. -/
theorem symbols_cases {i : Instruction} (readable : i.Readable) :
    (∃ s, i.symbols = [s] ∧ i.bytes = s.bytes) ∨
      ∃ o p, i = .op p ∧ o.verifyForm? = some p ∧ i.symbols = [.op o, .op .verify] := by
  cases i with
  | op p =>
    cases p with
    | equalVerify => exact .inr ⟨.equal, _, rfl, rfl, rfl⟩
    | checkSigVerify => exact .inr ⟨.checkSig, _, rfl, rfl, rfl⟩
    | checkMultiSigVerify => exact .inr ⟨.checkMultiSig, _, rfl, rfl, rfl⟩
    | _ => exact .inl ⟨_, rfl, rfl⟩
  | bit b => exact .inl ⟨_, rfl, by cases b <;> rfl⟩
  | number n =>
    have value : (UInt32.ofNat n).toNat = n := UInt32.toNat_ofNat_of_lt' readable
    exact .inl ⟨_, rfl, by simp [bytes, Symbol.bytes, value]⟩
  | data d =>
    left
    rcases readable with size | size | size <;>
      simp [symbols, Symbol.ofData?, size, Symbol.bytes, bytes]
  | key k =>
    obtain ⟨p, rfl⟩ := readable
    exact .inl ⟨_, rfl, rfl⟩

theorem symbols_ne_nil {i : Instruction} (readable : i.Readable) : i.symbols ≠ [] := by
  rcases symbols_cases readable with ⟨s, single, _⟩ | ⟨o, p, _, _, double⟩
  · simp [single]
  · simp [double]

/-- Every instruction takes a byte. -/
theorem length_le_length_bytes {is : List Instruction} (readable : ∀ i ∈ is, i.Readable) :
    is.length ≤ (is.flatMap bytes).length := by
  induction is with
  | nil => exact Nat.le_refl 0
  | cons i rest ih =>
    have tail := ih fun j member => readable j (List.mem_cons_of_mem _ member)
    obtain ⟨opcode, data, read⟩ := exists_readAs (readable i List.mem_cons_self)
    rw [List.flatMap_cons, read.bytes]
    simp only [List.length_cons, List.length_append]
    omega

theorem length_symbols_le {is : List Instruction} (readable : ∀ i ∈ is, i.Readable) :
    (is.flatMap symbols).length ≤ 2 * is.length := by
  induction is with
  | nil => exact Nat.zero_le _
  | cons i rest ih =>
    have tail := ih fun j member => readable j (List.mem_cons_of_mem _ member)
    have head : i.symbols.length ≤ 2 := by
      rcases symbols_cases (readable i List.mem_cons_self) with ⟨s, single, _⟩ | ⟨o, p, _, _, double⟩
      · simp [single]
      · simp [double]
    rw [List.flatMap_cons, List.length_append, List.length_cons]
    omega

end Instruction

/-- There are at most two tokens for each byte. -/
theorem Token.length_le_of_lex {script : Bytes} {tokens : List Token}
    (lexed : lex script = .ok tokens) : tokens.length ≤ 2 * script.length := by
  obtain ⟨is, readable, -, rfl, same⟩ := exists_instructions_of_lex lexed
  have tokensEq : tokens.length = (is.flatMap Instruction.symbols).length := by
    rw [← List.length_map symbol, same, List.length_reverse]
  have symbols := Instruction.length_symbols_le readable
  have bytes := Instruction.length_le_length_bytes readable
  omega

namespace Script

/-- After an opcode that could take in a VERIFY, fused instructions do not go on with VERIFY. -/
theorem Fused.not_verify {i : Instruction} {is : List Instruction} {o p : Opcode}
    {rest : List Symbol} (fused : Fused (i :: is)) (readable : ∀ j ∈ i :: is, j.Readable)
    (single : i.symbols = [.op o]) (form : o.verifyForm? = some p)
    (begins : is.flatMap Instruction.symbols = .op .verify :: rest) : False := by
  obtain ⟨next, -⟩ := List.isChain_cons.1 fused
  have isOp : i = .op o := by
    obtain ⟨q, rfl, simple⟩ := Instruction.exists_op_of_symbols (readable i (by simp)) single
    cases q <;> simp_all [Opcode.simpler]
  cases is with
  | nil => simp at begins
  | cons j js =>
    obtain ⟨s, more, split⟩ := List.exists_cons_of_ne_nil
      (Instruction.symbols_ne_nil (readable j (by simp)))
    rw [List.flatMap_cons, split, List.cons_append, List.cons.injEq] at begins
    rw [begins.1] at split
    obtain ⟨q, rfl, simple⟩ := Instruction.exists_op_of_symbols (readable j (by simp)) split
    have isVerify : q = .verify := by cases q <;> simp_all [Opcode.simpler]
    subst isVerify
    have none := next _ rfl rfl o isOp
    rw [form] at none
    cases none

/-- The symbols of fused instructions determine their bytes. -/
theorem bytes_eq_of_symbols_eq {is js : List Instruction} (readable : ∀ i ∈ is, i.Readable)
    (readable' : ∀ j ∈ js, j.Readable) (fused : Fused is) (fused' : Fused js)
    (same : is.flatMap Instruction.symbols = js.flatMap Instruction.symbols) :
    is.flatMap Instruction.bytes = js.flatMap Instruction.bytes := by
  induction is generalizing js with
  | nil =>
    cases js with
    | nil => rfl
    | cons j js =>
      have some := Instruction.symbols_ne_nil (readable' j (by simp))
      simp [some] at same
  | cons i is ih =>
    cases js with
    | nil =>
      have some := Instruction.symbols_ne_nil (readable i (by simp))
      simp [some] at same
    | cons j js =>
      have rest (tail : is.flatMap Instruction.symbols = js.flatMap Instruction.symbols) :
          is.flatMap Instruction.bytes = js.flatMap Instruction.bytes :=
        ih (fun k member => readable k (by simp [member]))
          (fun k member => readable' k (by simp [member])) (List.isChain_cons.1 fused).2
          (List.isChain_cons.1 fused').2 tail
      rw [List.flatMap_cons, List.flatMap_cons] at same ⊢
      rcases Instruction.symbols_cases (readable i (by simp)) with
        ⟨s, single, bytes⟩ | ⟨o, p, isForm, form, double⟩
      · rcases Instruction.symbols_cases (readable' j (by simp)) with
          ⟨t, single', bytes'⟩ | ⟨o', p', isForm', form', double'⟩
        · rw [single, single', List.singleton_append, List.singleton_append, List.cons.injEq]
            at same
          rw [bytes, bytes', same.1, rest same.2]
        · rw [single, double'] at same
          simp only [List.cons_append, List.nil_append, List.cons.injEq] at same
          rw [same.1] at single
          exact (fused.not_verify readable single form' same.2).elim
      · rcases Instruction.symbols_cases (readable' j (by simp)) with
          ⟨t, single', bytes'⟩ | ⟨o', p', isForm', form', double'⟩
        · rw [double, single'] at same
          simp only [List.cons_append, List.nil_append, List.cons.injEq] at same
          rw [← same.1] at single'
          exact (fused'.not_verify readable' single' form same.2.symm).elim
        · rw [double, double'] at same
          simp only [List.cons_append, List.nil_append, List.cons.injEq, Symbol.op.injEq, true_and]
            at same
          rw [same.1, form'] at form
          cases form
          rw [isForm, isForm', rest same.2]

end Script

end LockScript
