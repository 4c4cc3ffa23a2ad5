import LockScript.Console.Arguments
import LockScript.Console.Lines
import LockScript.Console.LogLevel
import LockScript.Console.Session

/-!
The command line as a function of its arguments and of the text it is given to read.
-/

namespace LockScript

/-- What is wrong with the options. -/
inductive OptionsFault where
  /-- More than one network is chosen. -/
  | networks
  | mode (name : Bytes)
  | keys (name : Bytes)
  | depth (n : Int)
  | levels (reason : LogLevels.Error)

/-- The wording of a fault, with the text in question byte for byte. -/
def OptionsFault.message (fault : OptionsFault) : Bytes :=
  utf8 "loadConfig: " ++ match fault with
    | .networks =>
      utf8 ("The testnet, regtest, and simnet params can't be used together -- "
        ++ "choose one of the three")
    | .mode name =>
      utf8 "The specified mode [" ++ name ++ utf8 "] is invalid -- supported modes ["
        ++ utf8 (" ".intercalate (Mode.all.map Mode.name)) ++ utf8 "]"
    | .keys name =>
      utf8 "The specified key kind [" ++ name
        ++ utf8 "] is invalid -- supported kinds [named hex]"
    | .depth n => utf8 s!"The maximum depth must be positive, got {n}"
    | .levels reason => reason.message

/-- What the options ask for. -/
structure Task where
  mode : Mode
  plan : Plan
  levels : LogLevels
  /-- The directory of the log file; empty if there is none. -/
  logDir : Bytes

namespace Options

/-- The network chosen, the main one if none is. -/
def network (o : Options) : Except OptionsFault Network :=
  match o.testnet, o.regtest, o.simnet with
  | false, false, false => .ok .main
  | true, false, false => .ok .test
  | false, true, false => .ok .regression
  | false, false, true => .ok .simulation
  | _, _, _ => .error .networks

/-- Whether names are refused as keys. -/
def hexKeysOnly (o : Options) : Except OptionsFault Bool :=
  if o.keys = utf8 "named" then .ok false
  else if o.keys = utf8 "hex" then .ok true
  else .error (.keys o.keys)

/-- What the options ask for, if they make sense. -/
def task (o : Options) : Except OptionsFault Task := do
  let network ← o.network
  let mode ← match Mode.ofName? o.mode with
    | some mode => .ok mode
    | none => .error (.mode o.mode)
  let hexKeysOnly ← o.hexKeysOnly
  if o.maxDepth ≤ 0 then .error (.depth o.maxDepth)
  match LogLevels.adjust o.debugLevel (LogLevels.uniform .info) with
  | (.error reason, _) => .error (.levels reason)
  | (.ok (), levels) =>
    let plan : Plan := { hexKeysOnly, limit := o.maxDepth, memoryLimit := o.cacheSize, network }
    return { mode, plan, levels, logDir := o.logDir }

end Options

namespace Console

/-- Why a run fails. -/
inductive Error where
  | arguments (reason : Options.Error)
  | options (reason : OptionsFault)
  | lines (reason : Lines.TooLong)
  /-- Some inputs have no answer. -/
  | inputs (failed total : Nat)

/-- The wording of an error. -/
def Error.message : Error → Bytes
  | .arguments reason => reason.message
  | .options reason => reason.message
  | .lines reason => utf8 reason.message
  | .inputs failed total => utf8 s!"{failed} of {total} inputs failed"

/-- What comes of handling some inputs. -/
structure Tally where
  output : String
  /-- All that is logged, whatever the levels. -/
  log : List LogLine
  failed : Nat

/-- Handles inputs in order. -/
def runInputs (mode : Mode) : Session RecentFacts → List Bytes → Tally
  | _, [] => ⟨"", [], 0⟩
  | s, input :: rest =>
    let (answer, s) := s.run mode input
    let others := runInputs mode s rest
    let warning := answer.warning.toList.map fun w => LogLine.mk .warn (utf8 w)
    match answer.result with
    | .ok output => ⟨output ++ others.output, warning ++ others.log, others.failed⟩
    | .error e =>
      let line := LogLine.mk .error (input ++ utf8 s!": {e.message}")
      ⟨others.output, warning ++ line :: others.log, others.failed + 1⟩

/-- What a run prints and logs, and whether it fails. -/
structure Outcome where
  output : String
  /-- The log lines that are written. -/
  log : List LogLine
  /-- The directory of the log file; empty if there is none. -/
  logDir : Bytes
  error : Option Error

/-- A run that fails before any input is handled. -/
def Outcome.failed (logDir : Bytes) (e : Error) : Outcome := ⟨"", [], logDir, some e⟩

/-- Carries out a task on inputs. -/
def perform (t : Task) (inputs : List Bytes) : Outcome :=
  let tally := runInputs t.mode (.start t.plan) inputs
  { output := tally.output
    log := tally.log.filter (·.isWritten t.levels)
    logDir := t.logDir
    error := if tally.failed = 0 then none else some (.inputs tally.failed inputs.length) }

/-- The task and the inputs that the arguments give. -/
def prepare (args : List Bytes) : Except Error (Task × List Bytes) := do
  let (options, given) ← (Options.read args).mapError .arguments
  return (← options.task.mapError .options, given)

/-- Carries out a task on the inputs given, or if there are none on those in the text. -/
def performOn (t : Task) (given : List Bytes) (text : Bytes) : Outcome :=
  match Lines.inputs given text with
  | .error e => .failed t.logDir (.lines e)
  | .ok inputs => perform t inputs

/-- The run with these arguments. Inputs that are not given are read from the text. -/
def run (args : List Bytes) (text : Bytes) : Outcome :=
  match prepare args with
  | .error e => .failed [] e
  | .ok (task, given) => performOn task given text

end Console

end LockScript
