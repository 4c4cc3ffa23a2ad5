import LockScript.Fragment.Checked
import LockScript.Text.Integer
import LockScript.Text.Unquoted

/-!
The options of the command line.

An option is written `--name=value`, `--name value`, `-n value`, `-nvalue` or `-n=value`, a switch
without a value. Options and inputs may be mixed; after `--` there are only inputs. A later option
overrides an earlier one. A value may be in double quotes.
-/

namespace LockScript

/-- An option of the command line. -/
inductive Flag where
  | debugLevel
  | logDir
  | mode
  | keys
  | maxDepth
  | cacheSize
  | regtest
  | simnet
  | testnet
  | help
  deriving DecidableEq, Repr

/-- What kind of value an option has. -/
inductive ValueKind where
  /-- None: the option is a switch. -/
  | switch
  | text
  /-- An integer. -/
  | integer
  /-- A natural number. -/
  | natural
  deriving DecidableEq, Repr

/-- The name of a kind of value. -/
def ValueKind.name : ValueKind → String
  | .switch => "bool"
  | .text => "string"
  | .integer => "int"
  | .natural => "uint"

namespace Flag

/-- All options. -/
def all : List Flag :=
  [.debugLevel, .logDir, .mode, .keys, .maxDepth, .cacheSize, .regtest, .simnet, .testnet, .help]

/-- The long name, which is written after two dashes. -/
def long : Flag → String
  | .debugLevel => "debuglevel"
  | .logDir => "logdir"
  | .mode => "mode"
  | .keys => "keys"
  | .maxDepth => "maxdepth"
  | .cacheSize => "cachesize"
  | .regtest => "regtest"
  | .simnet => "simnet"
  | .testnet => "testnet"
  | .help => "help"

/-- The short name, which is written after one dash. -/
def short? : Flag → Option Char
  | .debugLevel => some 'd'
  | .mode => some 'm'
  | .keys => some 'k'
  | .help => some 'h'
  | _ => none

/-- The kind of value. -/
def valueKind : Flag → ValueKind
  | .debugLevel => .text
  | .logDir => .text
  | .mode => .text
  | .keys => .text
  | .maxDepth => .integer
  | .cacheSize => .natural
  | .regtest => .switch
  | .simnet => .switch
  | .testnet => .switch
  | .help => .switch

/-- The option as messages call it. -/
def label (f : Flag) : String :=
  match f.short? with
  | some c => s!"-{c}, --{f.long}"
  | none => s!"--{f.long}"

/-- The option with this long name. -/
def ofLong? (name : Bytes) : Option Flag := all.find? fun f => utf8 f.long = name

/-- The option with this short name. -/
def ofShort? (c : Char) : Option Flag := all.find? fun f => f.short? = some c

end Flag

/-- The values of all options. -/
structure Options where
  debugLevel : Bytes := utf8 "info"
  logDir : Bytes := []
  mode : Bytes := utf8 "parse"
  keys : Bytes := utf8 "named"
  maxDepth : Int := defaultLimit
  cacheSize : Nat := 0
  regtest : Bool := false
  simnet : Bool := false
  testnet : Bool := false

namespace Options

/-- Why a value does not fit an option. -/
inductive ValueError where
  /-- The quotes around the value are malformed. -/
  | badQuotes
  | badInteger (text : Bytes) (reason : Integer.Fault)
  | badNatural (text : Bytes) (reason : Integer.Fault)

/-- The wording of the error. -/
def ValueError.message : ValueError → String
  | .badQuotes => "invalid syntax"
  | .badInteger text reason => s!"strconv.ParseInt: parsing {quoted text}: {reason.message}"
  | .badNatural text reason => s!"strconv.ParseUint: parsing {quoted text}: {reason.message}"

/-- What is wrong with the arguments. -/
inductive Error where
  | unknownFlag (name : Bytes)
  /-- The arguments end where a value is needed. -/
  | missingValue (f : Flag)
  /-- There is another option where a value is needed. -/
  | optionAsValue (f : Flag) (arg : Bytes)
  /-- There is a double dash where a value is needed. -/
  | dashesAsValue (f : Flag)
  /-- A switch with a value. -/
  | unwantedValue (f : Flag)
  | badValue (f : Flag) (reason : ValueError)
  /-- Help is asked for. -/
  | help

/-- How the program is called. -/
def usage : String :=
  "Usage:\n  miniscript [OPTIONS] [input...]\n\n"
    ++ "Inputs are read one per line from stdin when none are given.\n\nOptions:\n"
    ++ String.join (Flag.all.map fun f => s!"  {f.label}\n")

/-- The wording of an error, with arguments byte for byte. -/
def Error.message : Error → Bytes
  | .unknownFlag name => utf8 "unknown flag `" ++ name ++ utf8 "'"
  | .missingValue f => utf8 s!"expected argument for flag `{f.label}'"
  | .optionAsValue f arg =>
    utf8 s!"expected argument for flag `{f.label}', but got option `" ++ arg ++ utf8 "'"
  | .dashesAsValue f => utf8 s!"expected argument for flag `{f.label}', but got double dash `--'"
  | .unwantedValue f => utf8 s!"bool flag `{f.label}' cannot have an argument"
  | .badValue f reason =>
    utf8 s!"invalid argument for flag `{f.label}' (expected {f.valueKind.name}): {reason.message}"
  | .help => utf8 usage

/-- The options with a switch turned on. -/
def turnOn (o : Options) : Flag → Except Error Options
  | .regtest => .ok { o with regtest := true }
  | .simnet => .ok { o with simnet := true }
  | .testnet => .ok { o with testnet := true }
  | .help => .error .help
  | f => .error (.missingValue f)

/-- The options with a value, the quotes of which have been taken off. -/
def setText (o : Options) (f : Flag) (value : Bytes) : Except ValueError Options :=
  match f with
  | .debugLevel => .ok { o with debugLevel := value }
  | .logDir => .ok { o with logDir := value }
  | .mode => .ok { o with mode := value }
  | .keys => .ok { o with keys := value }
  | .maxDepth => match Integer.readInt value with
    | .ok n => .ok { o with maxDepth := n }
    | .error reason => .error (.badInteger value reason)
  | .cacheSize => match Integer.readNat value with
    | .ok n => .ok { o with cacheSize := n }
    | .error reason => .error (.badNatural value reason)
  | .regtest => .ok o
  | .simnet => .ok o
  | .testnet => .ok o
  | .help => .ok o

/-- The options with a value as it was written. -/
def set (o : Options) (f : Flag) (written : Bytes) : Except Error Options :=
  match unquoted? written with
  | none => .error (.badValue f .badQuotes)
  | some value => (o.setText f value).mapError (.badValue f)

/-- Whether an argument is an option: one or two dashes with something else than a dash after them. -/
def isOption : Bytes → Bool
  | a :: b :: c :: _ =>
    a = byte '-' && (b ≠ byte '-' || c ≠ byte '-')
  | [a, b] => a = byte '-' && b ≠ byte '-'
  | _ => false

/-- Whether an argument begins like a negative number. -/
def looksNegative : Bytes → Bool
  | a :: b :: _ => a = byte '-' && byte '0' ≤ b && b ≤ byte '9'
  | _ => false

/-- The option that an argument after its two dashes names, and the value after an equals sign. -/
def readLong (body : Bytes) : Except Error (Flag × Option Bytes) :=
  let (name, rest) := splitBefore (· = byte '=') body
  match Flag.ofLong? name with
  | none => .error (.unknownFlag name)
  | some f => .ok (f, rest.tail?)

/-- The option with this short name. -/
def readShortName (c : Char) : Except Error Flag :=
  match Flag.ofShort? c with
  | some f => .ok f
  | none => .error (.unknownFlag (String.utf8EncodeChar c))

/-- The option that an argument after its dash names by its first character, and the value attached
to it. -/
def readShort (b : UInt8) (rest : Bytes) : Except Error (Flag × Option Bytes) := do
  let (glyph, size) := firstGlyph b rest
  let f ← readShortName glyph.shown
  let attached := rest.drop (size - 1)
  if attached.head? = some (byte '=') then return (f, some attached.tail)
  else if f.valueKind = .switch ∨ attached = [] then return (f, none)
  else return (f, some attached)

/-- The option that an argument names and the value it brings, or none if it is an input. -/
def readWord (arg : Bytes) : Except Error (Option (Flag × Option Bytes)) :=
  if isOption arg then
    match arg with
    | _ :: b :: rest => do
      if b = byte '-' then return some (← readLong rest) else return some (← readShort b rest)
    | _ => .ok none
  else .ok none

/-- Accepts the argument after an option as its value. -/
def checkValue (f : Flag) (arg : Bytes) : Except Error Unit :=
  if isOption arg && !(f.valueKind = .integer && looksNegative arg) then
    .error (.optionAsValue f arg)
  else if arg = utf8 "--" then .error (.dashesAsValue f)
  else .ok ()

/-- The options after these arguments, and the inputs among them. -/
def readFrom : List Bytes → Options → Except Error (Options × List Bytes)
  | [], o => .ok (o, [])
  | arg :: rest, o =>
    if arg = utf8 "--" then .ok (o, rest)
    else do
      match ← readWord arg with
      | none => do
        let (o, inputs) ← readFrom rest o
        return (o, arg :: inputs)
      | some (f, attached) =>
        if f.valueKind = .switch then
          if attached.isSome then .error (.unwantedValue f) else readFrom rest (← o.turnOn f)
        else match attached with
          | some value => readFrom rest (← o.set f value)
          | none => match rest with
            | [] => .error (.missingValue f)
            | value :: others => do
              checkValue f value
              readFrom others (← o.set f value)

/-- The options and inputs that the arguments give. -/
def read (args : List Bytes) : Except Error (Options × List Bytes) := readFrom args {}

end Options

end LockScript
