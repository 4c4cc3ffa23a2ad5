import LockScript.Key.Point
import LockScript.Digest.HashFunction
import LockScript.Text.Quoted

/-!
Keys: points of the curve, and names that stand for a key not known yet.

A named key has a text and a hash like any other, so that everything short of writing the script can
be done with it.
-/

namespace LockScript

/-- A key of a fragment or policy. -/
inductive Key where
  /-- A public key. -/
  | point (p : Point)
  /-- A name in place of a public key. -/
  | named (name : Bytes)
  deriving DecidableEq

namespace Key

/-- The text of a key: the hexadecimal encoding of a point, or the name. -/
def text : Key → Bytes
  | .point p => Hex.encode p.bytes
  | .named name => name

/-- The bytes a script pushes for the key, if it is known. -/
def bytes? : Key → Option Bytes
  | .point p => some p.bytes
  | .named _ => none

/-- The hash that commits to the key; the name's own hash stands in for that of a key not known. -/
def hash : Key → Digest 20
  | .point p => hash160 p.bytes
  | .named name => hash160 name

/-- Why a text is not a key. -/
inductive Error where
  /-- The text is not hexadecimal. -/
  | notHex (text : Bytes) (reason : Hex.Error)
  /-- The bytes are not a compressed point. -/
  | notPoint (reason : Point.Error)
  /-- The name is empty. -/
  | emptyName
  /-- The name holds a character that is not a letter, digit or underscore. -/
  | badName (name : Bytes) (c : Char)
  deriving DecidableEq, Repr

/-- The wording of a key error. -/
def Error.message : Error → String
  | .notHex text reason => "key " ++ quoted text ++ " is not hex: " ++ reason.message
  | .notPoint reason => reason.message
  | .emptyName => "empty key name"
  | .badName name c => "key name " ++ quoted name ++ " contains " ++ quotedChar c

/-- A way to read keys from text or from the bytes of a script. -/
abbrev Reader := Bytes → Except Error Key

/-- The key with the given encoding. -/
def ofBytes : Reader := fun data =>
  match Point.ofBytes data with
  | .ok p => .ok (.point p)
  | .error reason => .error (.notPoint reason)

/-- The key with the given encoding in hexadecimal. -/
def ofHex : Reader := fun text =>
  match Hex.decode text with
  | .ok data => ofBytes data
  | .error reason => .error (.notHex text reason)

/-- The characters names are made of. -/
def isNameChar (c : Char) : Bool :=
  ('a' ≤ c && c ≤ 'z') || ('A' ≤ c && c ≤ 'Z') || ('0' ≤ c && c ≤ '9') || c = '_'

/-- The key of a name made of ASCII letters, digits and underscores. -/
def ofName : Reader := fun name =>
  if name = [] then .error .emptyName
  else match ((glyphs name).map Glyph.shown).find? (fun c => !isNameChar c) with
    | some c => .error (.badName name c)
    | none => .ok (.named name)

/-- The key with the given text: a point if there are 66 hexadecimal digits, otherwise a name. -/
def ofText : Reader := fun text =>
  if text.length = 2 * Point.size then
    match Hex.decode text with
    | .ok _ => ofHex text
    | .error _ => ofName text
  else ofName text

end Key

end LockScript
