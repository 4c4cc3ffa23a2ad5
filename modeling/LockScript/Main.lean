import LockScript.Console.Run

/-!
The command line: passes arguments and standard input on, and writes what comes of them.
-/

namespace LockScript.Console

/-- All that can be read. -/
partial def readAll (input : IO.FS.Stream) (before : ByteArray) : IO ByteArray := do
  let more ← input.read 65536
  if more.isEmpty then return before else readAll input (before ++ more)

/-- The bytes of a text. -/
def toByteArray (text : Bytes) : ByteArray := ⟨text.toArray⟩

/-- Writes a message and how the program is called. -/
def explain (message : Bytes) : IO Unit := do
  (← IO.getStderr).write (toByteArray (message ++ utf8 ("\n" ++ Options.usage ++ "\n")))

/-- Writes log lines to a stream. -/
def writeLog (log : List LogLine) (write : ByteArray → IO Unit) : IO Unit :=
  log.forM fun line => write (toByteArray (line.text ++ [0x0A]))

/-- Appends log lines to the log file in a directory. -/
def writeLogFile (dir : String) (log : List LogLine) : IO Unit := do
  IO.FS.createDirAll dir
  let file ← IO.FS.Handle.mk (dir ++ "/miniscript.log") .append
  writeLog log file.write

/-- Reports why a run fails; inputs that failed have been logged already. -/
def reportError : Error → IO Unit
  | .arguments .help => IO.print Options.usage
  | .arguments reason => explain reason.message
  | .options reason => explain reason.message
  | .lines _ => pure ()
  | .inputs _ _ => pure ()

/-- Writes what a run printed and logged. -/
def report (outcome : Outcome) : IO UInt32 := do
  IO.print outcome.output
  let stderr ← IO.getStderr
  writeLog outcome.log stderr.write
  if outcome.logDir ≠ [] then writeLogFile (shown outcome.logDir) outcome.log
  match outcome.error with
  | none => return 0
  | some e => do
    reportError e
    return 1

end LockScript.Console

open LockScript in
/-- Runs the command line. Standard input is only read if no inputs are given. -/
def main (args : List String) : IO UInt32 := do
  match Console.prepare (args.map utf8) with
  | .error e => Console.report (.failed [] e)
  | .ok (task, given) => do
    let text ← if given.isEmpty then do Console.readAll (← IO.getStdin) .empty else pure .empty
    Console.report (Console.performOn task given text.toList)
