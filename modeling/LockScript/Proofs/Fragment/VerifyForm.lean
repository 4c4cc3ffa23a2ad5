import LockScript.Proofs.Fragment.Script

/-!
Scripts that take in a VERIFY.

The cost of a fragment says whether its script ends in an opcode that has a VERIFY form, and the
script relies on that where a VERIFY follows: told of it, the script differs in that opcode or not
at all (`instructions_verify`). So a VERIFY never stands apart from an opcode that could have taken
it in, and a script is never refused for that when it is taken apart.
-/

namespace LockScript

/-! ## One VERIFY after another opcode -/

namespace Script

/-- No opcode with a VERIFY form is followed by VERIFY. -/
def Elements.Fused : Elements → Prop
  | .cons e (.cons e' rest) =>
    (e'.opcode = Opcode.verify.code → ∀ o : Opcode, e.opcode = o.code → o.verifyForm? = none) ∧
      Elements.Fused (.cons e' rest)
  | _ => True

theorem symbolsOf_of_verifyForm {e : Element} {o p : Opcode} (same : e.opcode = o.code)
    (form : o.verifyForm? = some p) (previous : Option Symbol) :
    Token.symbolsOf previous e = .ok [.op o] := by
  rw [Token.symbolsOf, same, Opcode.ofCode?_code]
  cases o <;> first | rfl | cases form

theorem symbolsOf_verify {e : Element} (verify : e.opcode = Opcode.verify.code) {o p : Opcode}
    (form : o.verifyForm? = some p) :
    Token.symbolsOf (some (.op o)) e = .error (.separateVerify o) := by
  rw [Token.symbolsOf, verify, Opcode.ofCode?_code]
  dsimp only
  rw [form]
  rfl

/-- What can be taken apart has no VERIFY that should have been taken in. -/
theorem fused_of_lexOnto {elements : Elements} {before tokens : List Token}
    (lexed : Token.lexOnto before elements = .ok tokens) : elements.Fused := by
  induction elements generalizing before with
  | done => trivial
  | malformed offset fault => trivial
  | cons e rest ih =>
    rw [Token.lexOnto] at lexed
    split at lexed
    · cases lexed
    · next symbols read =>
      have later := ih lexed
      cases rest with
      | done => trivial
      | malformed offset fault => trivial
      | cons e' rest =>
        refine ⟨fun verify o same => ?_, later⟩
        cases form : o.verifyForm? with
        | none => rfl
        | some p =>
          rw [symbolsOf_of_verifyForm same form] at read
          cases read
          rw [Token.lexOnto] at lexed
          simp [symbolsOf_verify verify form] at lexed

end Script

/-! ## The last opcode -/

theorem Opcode.verifyForm?_isSome_iff {o : Opcode} :
    (∃ p, o.verifyForm? = some p) ↔ o = .equal ∨ o = .checkSig ∨ o = .checkMultiSig := by
  cases o <;> simp [verifyForm?]

namespace Fragment

/-- The script ends in an opcode with a VERIFY form, and has that form in its place, and all else as
it was, when a VERIFY follows. -/
def TakesVerify (f : Fragment) : Prop :=
  ∃ is o p, o.verifyForm? = some p ∧ f.instructions false = is ++ [.op o] ∧
    f.instructions true = is ++ [.op p]

/-- The cost tells whether a script takes in a VERIFY; if it does not, it is the same before one. -/
theorem instructions_verify (f : Fragment) :
    ((f.cost Int64).verifyForm = true ∧ f.TakesVerify) ∨
      (f.cost Int64).verifyForm = false ∧ f.instructions true = f.instructions false := by
  induction f with
  | leaf l =>
    rw [cost]
    cases l with
    | hashLock h image =>
      left
      exact ⟨rfl, [_, _, _, _, _], .equal, _, rfl, rfl, rfl⟩
    | multi k keys =>
      left
      refine ⟨rfl, .number k.toNat :: keys.map .key ++ [.number keys.length], .checkMultiSig, _,
        rfl, ?_, ?_⟩
      · rw [instructions, Leaf.instructions, List.append_assoc]
        rfl
      · rw [instructions, Leaf.instructions, List.append_assoc]
        rfl
    | _ =>
      right
      exact ⟨rfl, rfl⟩
  | wrap w x ih =>
    rw [cost]
    cases w with
    | swap =>
      rcases ih with ⟨flag, is, o, p, form, plain, told⟩ | ⟨flag, same⟩
      · left
        refine ⟨flag, .op .swap :: is, o, p, form, ?_, ?_⟩
        · rw [instructions, plain, List.cons_append]
        · rw [instructions, told, List.cons_append]
      · right
        refine ⟨flag, ?_⟩
        rw [instructions, instructions, same]
    | check =>
      left
      refine ⟨rfl, x.instructions false, .checkSig, .checkSigVerify, rfl, ?_, ?_⟩
      · rw [instructions]
        rfl
      · rw [instructions]
        rfl
    | _ =>
      right
      refine ⟨rfl, ?_⟩
      rw [instructions, instructions]
  | pair op x y _ ih =>
    rw [cost]
    cases op with
    | andV =>
      rcases ih with ⟨flag, is, o, p, form, plain, told⟩ | ⟨flag, same⟩
      · left
        refine ⟨flag, x.instructions false ++ is, o, p, form, ?_, ?_⟩
        · rw [instructions, plain, List.append_assoc]
        · rw [instructions, told, List.append_assoc]
      · right
        refine ⟨flag, ?_⟩
        rw [instructions, instructions, same]
    | _ =>
      right
      refine ⟨rfl, ?_⟩
      rw [instructions, instructions]
  | andor x y z =>
    right
    refine ⟨rfl, ?_⟩
    rw [instructions, instructions]
  | thresh k subs =>
    left
    refine ⟨rfl, sumInstructions true subs ++ [.number k.toNat], .equal, _, rfl, ?_, ?_⟩
    · rw [instructions, List.append_assoc]
      rfl
    · rw [instructions, List.append_assoc]
      rfl

/-- A script takes in a VERIFY just if it ends in one of the three opcodes that can. -/
theorem verifyForm_iff (f : Fragment) : (f.cost Int64).verifyForm = true ↔
    ∃ o, (f.instructions false).getLast? = some (.op o) ∧
      (o = .equal ∨ o = .checkSig ∨ o = .checkMultiSig) := by
  constructor
  · intro flag
    rcases f.instructions_verify with ⟨-, is, o, p, form, plain, -⟩ | ⟨unset, -⟩
    · refine ⟨o, ?_, Opcode.verifyForm?_isSome_iff.1 ⟨p, form⟩⟩
      rw [plain, List.getLast?_concat]
    · rw [unset] at flag
      cases flag
  · rintro ⟨o, last, among⟩
    rcases f.instructions_verify with ⟨flag, -⟩ | ⟨-, same⟩
    · exact flag
    · -- Told of a VERIFY, the script would end in an opcode that cannot take it in.
      obtain ⟨p, form⟩ := Opcode.verifyForm?_isSome_iff.2 among
      rw [← same] at last
      rw [f.endsBare_instructions o last] at form
      cases form

end Fragment

/-- The cost of a checked fragment tells how its script ends and what becomes of it before a VERIFY.
Scripts in bytes have no VERIFY apart from an opcode that could take it in, and can be taken apart
into tokens. -/
theorem Checked.verifyForm_tells_ending (m : Checked) :
    (m.cost.verifyForm = true ↔
      ∃ o, (m.fragment.instructions false).getLast? = some (.op o) ∧
        (o = .equal ∨ o = .checkSig ∨ o = .checkMultiSig)) ∧
    (m.cost.verifyForm = true → m.fragment.TakesVerify) ∧
    (m.cost.verifyForm = false →
      m.fragment.instructions true = m.fragment.instructions false) ∧
    ∀ script, m.fragment.script = .ok script →
      (Script.elements script).Fused ∧ ∃ tokens, Token.lex script = .ok tokens := by
  have same : m.cost = m.fragment.cost Int64 := Fragment.cost_of_facts? m.typed
  rw [same]
  refine ⟨m.fragment.verifyForm_iff, fun flag => ?_, fun flag => ?_, fun script written => ?_⟩
  · rcases m.fragment.instructions_verify with ⟨-, takes⟩ | ⟨unset, -⟩
    · exact takes
    · rw [unset] at flag
      cases flag
  · rcases m.fragment.instructions_verify with ⟨set, -⟩ | ⟨-, same⟩
    · rw [set] at flag
      cases flag
    · exact same
  · have readable := Fragment.readable_of_typed m.typed (Fragment.writable_of_script written)
    obtain ⟨tokens, lexed, -⟩ := Fragment.lex_script readable written
    exact ⟨Script.fused_of_lexOnto lexed, tokens, lexed⟩

/-- `and_v(v:hash160(I),sha256(J))`, whose first part takes in a VERIFY and whose last could. -/
def twiceHashed : Checked where
  fragment := .pair .andV (.wrap .verify (.leaf (.hashLock .hash160 (.ofPrefix 20 [1]))))
    (.leaf (.hashLock .sha256 (.ofPrefix 32 [2])))
  facts := ⟨⟨⟨.B, .anyNonZero, false, true⟩, ⟨.unknown, false, true⟩⟩,
    ⟨.safe, 66, true, 8, some 8, none⟩⟩
  typed := by rfl

theorem Checked.verifyForm_tells_ending_twiceHashed :
    twiceHashed.cost.verifyForm = true ∧ twiceHashed.fragment.TakesVerify ∧
      ∃ script, twiceHashed.fragment.script = .ok script ∧
        (Script.elements script).Fused ∧ ∃ tokens, Token.lex script = .ok tokens := by
  obtain ⟨-, takes, -, fused⟩ := twiceHashed.verifyForm_tells_ending
  have room : twiceHashed.fragment.script.isOk = true := by decide +kernel
  refine ⟨rfl, takes rfl, ?_⟩
  cases written : twiceHashed.fragment.script with
  | error e =>
    rw [written] at room
    cases room
  | ok script => exact ⟨script, rfl, fused script written⟩

end LockScript
