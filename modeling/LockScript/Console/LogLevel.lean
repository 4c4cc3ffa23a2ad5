import LockScript.Text.Utf8

/-!
Log levels, and how they are chosen for the parts of the program.
-/

namespace LockScript

/-- How grave a log line is. -/
inductive LogLevel where
  | trace
  | debug
  | info
  | warn
  | error
  | critical
  deriving DecidableEq, Repr

namespace LogLevel

/-- The name by which a level is chosen. -/
def name : LogLevel → String
  | .trace => "trace"
  | .debug => "debug"
  | .info => "info"
  | .warn => "warn"
  | .error => "error"
  | .critical => "critical"

/-- The letters that mark a level in log lines. -/
def tag : LogLevel → String
  | .trace => "TRC"
  | .debug => "DBG"
  | .info => "INF"
  | .warn => "WRN"
  | .error => "ERR"
  | .critical => "CRT"

/-- The graver the level, the greater the number. -/
def rank : LogLevel → Nat
  | .trace => 0
  | .debug => 1
  | .info => 2
  | .warn => 3
  | .error => 4
  | .critical => 5

/-- All levels. -/
def all : List LogLevel := [.trace, .debug, .info, .warn, .error, .critical]

/-- The level with this name. -/
def ofName? (name : Bytes) : Option LogLevel := all.find? fun level => utf8 level.name = name

end LogLevel

/-- A part of the program that logs on its own. -/
inductive Subsystem where
  /-- The command line. -/
  | main
  /-- Fragments and their scripts. -/
  | fragments
  /-- Policies. -/
  | policies
  /-- The script machinery underneath. -/
  | scripts
  deriving DecidableEq, Repr

namespace Subsystem

/-- The name by which a part is chosen and marked in log lines. -/
def name : Subsystem → String
  | .main => "MAIN"
  | .fragments => "MSCR"
  | .policies => "PLCY"
  | .scripts => "SCRP"

/-- All parts in the order of their names. -/
def all : List Subsystem := [.main, .fragments, .policies, .scripts]

/-- The part with this name. -/
def ofName? (name : Bytes) : Option Subsystem := all.find? fun part => utf8 part.name = name

end Subsystem

/-- The least grave level that each part logs. -/
abbrev LogLevels := Subsystem → LogLevel

namespace LogLevels

/-- Every part at the same level. -/
def uniform (level : LogLevel) : LogLevels := fun _ => level

/-- One part at another level. -/
def set (levels : LogLevels) (part : Subsystem) (level : LogLevel) : LogLevels :=
  fun other => if other = part then level else levels other

/-- Why a choice of levels is refused. -/
inductive Error where
  | badLevel (text : Bytes)
  | badPair (text : Bytes)
  | badSubsystem (text : Bytes)

/-- The wording of an error, with the text in question byte for byte. -/
def Error.message : Error → Bytes
  | .badLevel text => utf8 "The specified debug level [" ++ text ++ utf8 "] is invalid"
  | .badPair text =>
    utf8 "The specified debug level contains an invalid subsystem/level pair [" ++ text ++ utf8 "]"
  | .badSubsystem text =>
    utf8 "The specified subsystem [" ++ text ++ utf8 "] is invalid -- supported subsystems ["
      ++ utf8 (" ".intercalate (Subsystem.all.map Subsystem.name)) ++ utf8 "]"

/-- The level with this name. -/
def readLevel (text : Bytes) : Except Error LogLevel :=
  match LogLevel.ofName? text with
  | some level => .ok level
  | none => .error (.badLevel text)

/-- A choice for one part, `name=level`. What follows a second equals sign is ignored. -/
def readPair (text : Bytes) : Except Error (Subsystem × LogLevel) :=
  match fields (byte '=') text with
  | name :: level :: _ => match Subsystem.ofName? name with
    | none => .error (.badSubsystem name)
    | some part => do return (part, ← readLevel level)
  | _ => .error (.badPair text)

/-- The levels after a sequence of choices, each for one part. The first that is refused ends it;
those before it stay in effect. -/
def adjustEach : List Bytes → LogLevels → Except Error Unit × LogLevels
  | [], levels => (.ok (), levels)
  | text :: rest, levels => match readPair text with
    | .error e => (.error e, levels)
    | .ok (part, level) => adjustEach rest (levels.set part level)

/-- The levels after a choice: one level for all parts, or choices for single parts with commas
between them. -/
def adjust (text : Bytes) (levels : LogLevels) : Except Error Unit × LogLevels :=
  if text.contains (byte ',') || text.contains (byte '=') then
    adjustEach (fields (byte ',') text) levels
  else match readLevel text with
    | .error e => (.error e, levels)
    | .ok level => (.ok (), uniform level)

end LogLevels

/-- A line in the log of the command line. -/
structure LogLine where
  level : LogLevel
  message : Bytes

namespace LogLine

/-- The line as it is written. -/
def text (l : LogLine) : Bytes :=
  utf8 s!"[{l.level.tag}] {Subsystem.main.name}: " ++ l.message

/-- Whether the line is grave enough to be written. -/
def isWritten (levels : LogLevels) (l : LogLine) : Bool := (levels .main).rank ≤ l.level.rank

end LogLine

end LockScript
