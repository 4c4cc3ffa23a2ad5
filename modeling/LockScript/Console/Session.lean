import LockScript.Address.Network
import LockScript.Expression.Reader
import LockScript.Fragment.Drawing
import LockScript.Fragment.OfExpression
import LockScript.Fragment.Reader
import LockScript.Fragment.Sanity
import LockScript.Fragment.Script
import LockScript.Policy.Reader
import LockScript.Script.Decoder
import LockScript.Verification.Basic

/-!
Sessions: a sequence of inputs handled one after the other with the same settings.

What decoded scripts were found to be made of is remembered from one input to the next.
-/

namespace LockScript

/-- What is done with an input. -/
inductive Mode where
  /-- Reports on a fragment. -/
  | parse
  /-- The script and address of a fragment. -/
  | compile
  /-- The fragment of a script. -/
  | decompile
  /-- The policy that a fragment enforces. -/
  | lift
  /-- The policy that a concrete policy stands for. -/
  | policy
  /-- The drawing of a fragment. -/
  | tree
  deriving DecidableEq, Repr

namespace Mode

/-- The name by which a mode is chosen. -/
def name : Mode → String
  | .parse => "parse"
  | .compile => "compile"
  | .decompile => "decompile"
  | .lift => "lift"
  | .policy => "policy"
  | .tree => "tree"

/-- All modes. -/
def all : List Mode := [.parse, .compile, .decompile, .lift, .policy, .tree]

/-- The mode with this name. -/
def ofName? (name : Bytes) : Option Mode := all.find? fun mode => utf8 mode.name = name

end Mode

/-- The settings of a session. -/
structure Plan where
  /-- Whether names are refused as keys. -/
  hexKeysOnly : Bool
  /-- The nesting limit. -/
  limit : Int
  /-- How many fragments are remembered, 0 standing for the default. -/
  memoryLimit : Nat
  network : Network

/-- How keys are read. -/
def Plan.readKey (p : Plan) : Key.Reader := if p.hexKeysOnly then Key.ofHex else Key.ofText

/-- How fragments are read. -/
def Plan.settings (p : Plan) : Settings := { readKey := p.readKey, limit := p.limit }

/-- A session between two inputs. -/
structure Session (σ : Type) where
  plan : Plan
  memory : Memory σ

namespace Session

variable {σ : Type} [Cache σ Bytes (Facts Int64)]

/-- Why an input has no answer. -/
inductive Error where
  | unknownMode (name : Bytes)
  | notHex (reason : Hex.Error)
  | fragment (reason : LockScript.Error)
  | expression (reason : Expression.Error)
  | insane (reason : Sanity.Error)
  | script (reason : Script.Error)
  | unverified (reason : Verification.Error)
  | mixedLocks (reason : Policy.MixedLocks)
  | concrete (reason : ConcretePolicy.Error)
  | unlifted (reason : ConcretePolicy.LiftError)

/-- The wording of an error. -/
def Error.message : Error → String
  | .unknownMode name => s!"unknown mode {quoted name}"
  | .notHex reason => s!"script is not hex: {reason.message}"
  | .fragment reason => reason.message
  | .expression reason => reason.cause.message
  | .insane reason => reason.message
  | .script reason => reason.message
  | .unverified reason => reason.message
  | .mixedLocks reason => reason.message
  | .concrete reason => reason.message
  | .unlifted reason => reason.message

/-- What comes of an input: a warning, if there is one, and what is printed. -/
structure Answer where
  warning : Option String
  result : Except Error String

/-- An answer without a warning. -/
def Answer.plain (result : Except Error String) : Answer := ⟨none, result⟩

/-- A session at its start. -/
def start (plan : Plan) : Session σ := ⟨plan, .ofLimit plan.memoryLimit⟩

/-- The fragment that an input is. -/
def readFragment (p : Plan) (input : Bytes) : Except Error Checked :=
  (Fragment.read p.settings input).mapError .fragment

/-- The report on a fragment. -/
def report (m : Checked) : String :=
  let sane := match m.checkSane with
    | .ok () => "yes"
    | .error reason => s!"no, {reason.message}"
  s!"miniscript: {shown m.text}\n"
    ++ s!"type:       {m.type.text}\n"
    ++ s!"script len: {m.scriptSize}\n"
    ++ s!"max ops:    {m.opCount}\n"
    ++ s!"sane:       {sane}\n"

/-- A script with its disassembly and address. -/
def scriptReport (n : Network) (script : Bytes) : String :=
  s!"script:  {Hex.shown script}\n"
    ++ s!"asm:     {Script.disassemble script}\n"
    ++ s!"address: {n.scriptAddress script} ({n.name})\n"

/-- The script of a fragment, with a warning if it is valid but not sane. -/
def compileFragment (p : Plan) (m : Checked) : Answer :=
  match m.checkTopLevel with
  | .error reason => .plain (.error (.insane reason))
  | .ok () =>
    { warning := match m.checkSane with
        | .ok () => none
        | .error reason => some s!"Compiling {shown m.text}: {reason.message}"
      result := match m.fragment.script with
        | .ok script => .ok (scriptReport p.network script)
        | .error reason => .error (.script reason) }

/-- The script of the fragment that an input is. -/
def compile (p : Plan) (input : Bytes) : Answer :=
  match readFragment p input with
  | .error e => .plain (.error e)
  | .ok m => compileFragment p m

/-- The fragment of the script that an input is. -/
def decodeInput (p : Plan) (input : Bytes) : Except Error Checked := do
  let script ← (Hex.decode input).mapError .notHex
  (Decoder.decode p.settings script).mapError .fragment

/-- The fragment of the script that an input is, verified against what is remembered. -/
def decompile (p : Plan) (input : Bytes) (memory : Memory σ) :
    Except Error String × Memory σ :=
  match decodeInput p input with
  | .error e => (.error e, memory)
  | .ok m => match m.claimed.verify memory with
    | (.error reason, memory) => (.error (.unverified reason), memory)
    | (.ok (), memory) => (.ok s!"{shown m.text}\n", memory)

/-- The policy that a fragment enforces. -/
def liftFragment (p : Plan) (input : Bytes) : Except Error String := do
  let m ← readFragment p input
  let policy ← m.fragment.lift.mapError .mixedLocks
  return s!"{shown policy.text}\n"

/-- The policy that a concrete policy stands for. -/
def liftPolicy (p : Plan) (input : Bytes) : Except Error String := do
  let concrete ← (ConcretePolicy.read p.readKey p.limit input).mapError .concrete
  let policy ← concrete.lift.mapError .unlifted
  return s!"{shown policy.text}\n"

/-- The drawing of a fragment that is read as an expression first. -/
def drawFragment (p : Plan) (input : Bytes) : Except Error String := do
  let e ← (Expression.read p.limit input).mapError .expression
  let m ← (Fragment.ofExpression p.settings e).mapError .fragment
  return m.fragment.draw

/-- Handles an input. -/
def run (s : Session σ) (mode : Mode) (input : Bytes) : Answer × Session σ :=
  match mode with
  | .parse => (.plain ((readFragment s.plan input).map report), s)
  | .compile => (compile s.plan input, s)
  | .decompile =>
    let (result, memory) := decompile s.plan input s.memory
    (.plain result, { s with memory })
  | .lift => (.plain (liftFragment s.plan input), s)
  | .policy => (.plain (liftPolicy s.plan input), s)
  | .tree => (.plain (drawFragment s.plan input), s)

/-- Handles an input in the mode with this name. -/
def runNamed (s : Session σ) (modeName input : Bytes) : Answer × Session σ :=
  match Mode.ofName? modeName with
  | some mode => s.run mode input
  | none => (.plain (.error (.unknownMode modeName)), s)

end Session

end LockScript
