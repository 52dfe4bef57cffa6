/-!
# Wire format

The binary form of protobuf messages: a sequence of fields, each a key and a value. A key holds the
number of the field and the form of its value. Values of a form that no declaration here needs, and
groups, are read over.
-/

namespace ProtoSdl.Wire

abbrev Bytes := List UInt8

inductive Value
  | number (value : Nat)
  | bytes (content : Bytes)
  /-- A value of fixed width. -/
  | fixed (width : Nat)
  deriving DecidableEq, Repr

abbrev Fields := List (Nat × Value)

/-- Reads a number of at most so many digits to the base 128, lowest first. All digits but the last
have their high bit set. -/
def readNumber : Nat → Bytes → Option (Nat × Bytes)
  | 0, _ => none
  | _, [] => none
  | digits + 1, byte :: rest =>
    if byte.toNat < 128 then some (byte.toNat, rest)
    else do
      let (higher, rest) ← readNumber digits rest
      return (byte.toNat - 128 + 128 * higher, rest)

def writeNumber (n : Nat) : Bytes :=
  if n < 128 then [UInt8.ofNat n] else UInt8.ofNat (n % 128 + 128) :: writeNumber (n / 128)
termination_by n
decreasing_by omega

def readBytes (count : Nat) (bytes : Bytes) : Option (Bytes × Bytes) :=
  if bytes.length < count then none else some (bytes.take count, bytes.drop count)

inductive Item
  | field (number : Nat) (value : Value)
  | groupStart (number : Nat)
  | groupEnd (number : Nat)

def readItem (bytes : Bytes) : Option (Item × Bytes) := do
  let (key, rest) ← readNumber 5 bytes
  let number := key / 8
  if number = 0 ∨ Nat.pow 2 32 ≤ key then none
  else
    match key % 8 with
    | 0 => do
      let (value, rest) ← readNumber 10 rest
      return (.field number (.number (value % Nat.pow 2 64)), rest)
    | 1 => do
      let (_, rest) ← readBytes 8 rest
      return (.field number (.fixed 8), rest)
    | 2 => do
      let (count, rest) ← readNumber 10 rest
      let (content, rest) ← readBytes count rest
      return (.field number (.bytes content), rest)
    | 3 => return (.groupStart number, rest)
    | 4 => return (.groupEnd number, rest)
    | 5 => do
      let (_, rest) ← readBytes 4 rest
      return (.field number (.fixed 4), rest)
    | _ => none

/-- Reads fields up to the end, given the groups that are open. A group's own fields are left out.
Every field takes at least one byte, so the number of bytes is fuel enough. -/
def readFields : Nat → List Nat → Bytes → Option Fields
  | _, opened, [] => if opened = [] then some [] else none
  | 0, _, _ :: _ => none
  | fuel + 1, opened, bytes => do
    let (item, rest) ← readItem bytes
    match item, opened with
    | .field number value, [] => return (number, value) :: (← readFields fuel [] rest)
    | .field _ _, opened => readFields fuel opened rest
    | .groupStart number, opened => readFields fuel (number :: opened) rest
    | .groupEnd number, innermost :: opened =>
      if number = innermost then readFields fuel opened rest else none
    | .groupEnd _, [] => none

def fields (bytes : Bytes) : Option Fields :=
  readFields bytes.length [] bytes

def writeBytes (number : Nat) (content : Bytes) : Bytes :=
  writeNumber (8 * number + 2) ++ writeNumber content.length ++ content

def writeValue (number value : Nat) : Bytes :=
  writeNumber (8 * number) ++ writeNumber value

def textBytes (text : String) : Bytes :=
  text.toUTF8.data.toList

def ofTextBytes (bytes : Bytes) : Option String :=
  String.fromUTF8? ⟨bytes.toArray⟩

namespace Fields

/-- The contents of all fields of a number that hold bytes. -/
def contents (fields : Fields) (number : Nat) : List Bytes :=
  fields.filterMap fun
    | (n, .bytes content) => if n = number then some content else none
    | _ => none

def texts (fields : Fields) (number : Nat) : Option (List String) :=
  (fields.contents number).mapM ofTextBytes

/-- The text of a field; the last one counts, and none is the empty text. -/
def text (fields : Fields) (number : Nat) : Option String := do
  return ((← fields.texts number).getLast?).getD ""

/-- The number in a field; the last one counts. -/
def number? (fields : Fields) (number : Nat) : Option Nat :=
  (fields.filterMap fun
    | (n, .number value) => if n = number then some value else none
    | _ => none).getLast?

def flag (fields : Fields) (number : Nat) : Bool :=
  (fields.number? number).any (· ≠ 0)

/-- The message in a field; several are read as one. -/
def message (fields : Fields) (number : Nat) : Option Fields :=
  Wire.fields (fields.contents number).flatten

def messages (fields : Fields) (number : Nat) : Option (List Fields) :=
  (fields.contents number).mapM Wire.fields

end Fields

def signed (value : Nat) : Int :=
  let low : Nat := value % Nat.pow 2 32
  if low < Nat.pow 2 31 then low else (low : Int) - Nat.pow 2 32

def readNumbers : Nat → Bytes → Option (List Nat)
  | _, [] => some []
  | 0, _ :: _ => none
  | fuel + 1, bytes => do
    let (value, rest) ← readNumber 10 bytes
    return value :: (← readNumbers fuel rest)

end ProtoSdl.Wire
