import ProtoSdl.Json.Basic

/-!
# Reading documents

A reader for JSON text. What is left of the text is carried along, and an error carries what was
left where it arose, so that its offset is a difference of lengths. `NaN`, `Infinity` and
`-Infinity` are accepted as numbers, control characters inside strings are not, and of entries
with one key the last counts. Integers with too many digits are refused, and so are values nested
too deeply, where there is a limit. A string with half of a surrogate pair is read on, since the
text may still be found to be no document, and refused at the end.
-/

namespace ProtoSdl.Json

inductive SyntaxCause
  | expectingValue
  | expectingKey
  | expectingColon
  | expectingComma
  | extraData
  | unterminatedText
  | controlCharacter
  | badEscape
  | badUnicodeEscape
  | byteOrderMark
  | tooManyDigits
  /-- A string has half of a surrogate pair, which is no character. -/
  | loneSurrogate
  /-- A list stands too deep inside other values. -/
  | deepList
  /-- An object stands too deep inside other values. -/
  | deepObject
  deriving DecidableEq, Repr

def SyntaxCause.message : SyntaxCause → String
  | expectingValue => "Expecting value"
  | expectingKey => "Expecting property name enclosed in double quotes"
  | expectingColon => "Expecting ':' delimiter"
  | expectingComma => "Expecting ',' delimiter"
  | extraData => "Extra data"
  | unterminatedText => "Unterminated string starting at"
  | controlCharacter => "Invalid control character at"
  | badEscape => "Invalid \\escape"
  | badUnicodeEscape => "Invalid \\uXXXX escape"
  | byteOrderMark => "Unexpected UTF-8 BOM (decode using utf-8-sig)"
  | tooManyDigits => "Exceeds the limit (4300 digits) for integer string conversion"
  | loneSurrogate => "surrogates not allowed"
  | deepList =>
    "maximum recursion depth exceeded while decoding a JSON array from a unicode string"
  | deepObject =>
    "maximum recursion depth exceeded while decoding a JSON object from a unicode string"

def maxDigits : Nat := 4300

/-- A cause together with what was left of the text where it arose. -/
structure Stop where
  cause : SyntaxCause
  rest : List Char

def isGap (c : Char) : Bool :=
  c = ' ' || c = '\t' || c = '\n' || c = '\r'

def skipGaps (cs : List Char) : List Char :=
  cs.dropWhile isGap

def hexValue? (c : Char) : Option Nat :=
  if c.isDigit then some (c.toNat - '0'.toNat)
  else if 'a' ≤ c ∧ c ≤ 'f' then some (c.toNat - 'a'.toNat + 10)
  else if 'A' ≤ c ∧ c ≤ 'F' then some (c.toNat - 'A'.toNat + 10)
  else none

/-- The code unit of four hexadecimal digits and the text after them, which must not be empty:
a string that ends inside an escape has no closing quote. -/
def unicodeUnit? : List Char → Option (Nat × List Char)
  | a :: b :: c :: d :: rest =>
    if rest = [] then none
    else do
      let a ← hexValue? a
      let b ← hexValue? b
      let c ← hexValue? c
      let d ← hexValue? d
      some (((a * 16 + b) * 16 + c) * 16 + d, rest)
  | _ => none

/-- The second half of a surrogate pair: another escape follows, and more text after it. -/
def pairedUnit? (cs : List Char) : Option (List Char) :=
  match cs with
  | '\\' :: 'u' :: rest => if rest.drop 4 = [] then none else some rest
  | _ => none

/-- The character of a code unit; half of a surrogate pair is none. -/
def charOfUnit? (unit : Nat) : Option Char :=
  if 0xd800 ≤ unit ∧ unit ≤ 0xdfff then none else some (Char.ofNat unit)

/-- The character of a `\u` escape, given what follows its `u`; none if it is half of a surrogate
pair. -/
def unicodeEscape (cs : List Char) : Except Stop (Option Char × List Char) :=
  match unicodeUnit? cs with
  | none => .error ⟨.badUnicodeEscape, 'u' :: cs⟩
  | some (unit, rest) =>
    if 0xd800 ≤ unit ∧ unit ≤ 0xdbff then
      match pairedUnit? rest with
      | none => .ok (charOfUnit? unit, rest)
      | some second =>
        match unicodeUnit? second with
        | none => .error ⟨.badUnicodeEscape, 'u' :: second⟩
        | some (low, after) =>
          if 0xdc00 ≤ low ∧ low ≤ 0xdfff then
            .ok (some (Char.ofNat (0x10000 + (unit - 0xd800) * 0x400 + (low - 0xdc00))), after)
          else .ok (charOfUnit? unit, rest)
    else .ok (charOfUnit? unit, rest)

def simpleEscape? : Char → Option Char
  | '"' => some '"'
  | '\\' => some '\\'
  | '/' => some '/'
  | 'b' => some '\x08'
  | 'f' => some '\x0c'
  | 'n' => some '\n'
  | 'r' => some '\r'
  | 't' => some '\t'
  | _ => none

/-- The rest of a string after its opening quote, without characters if one of them is none;
`start` is the text from that quote on. Each step reads a character or an escape, so the length of
the text is fuel enough. -/
def stringTail (start : List Char) :
    Nat → List Char → Except Stop (Option (List Char) × List Char)
  | 0, _ => .error ⟨.unterminatedText, start⟩
  | _ + 1, [] => .error ⟨.unterminatedText, start⟩
  | fuel + 1, c :: cs =>
    if c = '"' then .ok (some [], cs)
    else if c = '\\' then
      match cs with
      | [] => .error ⟨.unterminatedText, start⟩
      | 'u' :: rest => do
        let (escaped?, after) ← unicodeEscape rest
        let (tail?, after) ← stringTail start fuel after
        let chars? := do return (← escaped?) :: (← tail?)
        .ok (chars?, after)
      | e :: rest =>
        match simpleEscape? e with
        | none => .error ⟨.badEscape, c :: cs⟩
        | some escaped => do
          let (tail?, after) ← stringTail start fuel rest
          .ok (tail?.map (escaped :: ·), after)
    else if c.toNat ≤ 0x1f then .error ⟨.controlCharacter, c :: cs⟩
    else do
      let (tail?, after) ← stringTail start fuel cs
      .ok (tail?.map (c :: ·), after)

def readString (fuel : Nat) (cs : List Char) : Except Stop (Option String × List Char) := do
  let (chars?, after) ← stringTail ('"' :: cs) fuel cs
  .ok (chars?.map String.ofList, after)

def natOfDigits (digits : List Char) : Nat :=
  digits.foldl (fun n c => n * 10 + (c.toNat - '0'.toNat)) 0

/-- The digits of an integer part: a zero stands alone. -/
def integerPart? : List Char → Option (List Char × List Char)
  | '0' :: rest => some (['0'], rest)
  | c :: rest =>
    if c.isDigit then some (c :: rest.takeWhile Char.isDigit, rest.dropWhile Char.isDigit) else none
  | [] => none

/-- The digits of a fraction, if a point and a digit follow. -/
def fractionPart? : List Char → Option (List Char × List Char)
  | '.' :: c :: rest =>
    if c.isDigit then some (c :: rest.takeWhile Char.isDigit, rest.dropWhile Char.isDigit) else none
  | _ => none

/-- An exponent, if its mark, perhaps a sign, and a digit follow. -/
def exponentPart? (cs : List Char) : Option (Int × List Char) :=
  match cs with
  | e :: rest =>
    if e = 'e' ∨ e = 'E' then
      let (negative, rest) := match rest with
        | '-' :: r => (true, r)
        | '+' :: r => (false, r)
        | r => (false, r)
      let digits := rest.takeWhile Char.isDigit
      if digits = [] then none
      else
        let n : Int := natOfDigits digits
        some (if negative then -n else n, rest.dropWhile Char.isDigit)
    else none
  | [] => none

def readNumber (cs : List Char) : Except Stop (Json × List Char) :=
  let (negative, unsigned) := match cs with
    | '-' :: rest => (true, rest)
    | rest => (false, rest)
  match integerPart? unsigned with
  | none => .error ⟨.expectingValue, cs⟩
  | some (digits, rest) =>
    let fraction? := fractionPart? rest
    let (fraction, rest) := fraction?.getD ([], rest)
    let exponent? := exponentPart? rest
    let (exponent, rest) := exponent?.getD (0, rest)
    let n := natOfDigits (digits ++ fraction)
    if fraction?.isSome || exponent?.isSome then
      .ok (.decimal (.finite negative n (exponent - fraction.length)), rest)
    else if maxDigits < digits.length then .error ⟨.tooManyDigits, cs⟩
    else .ok (.int (if negative then -(n : Int) else n), rest)

def afterWord? : List Char → List Char → Option (List Char)
  | [], cs => some cs
  | w :: word, c :: cs => if w = c then afterWord? word cs else none
  | _ :: _, [] => none

def wordValues : List (String × Json) :=
  [("null", .null), ("true", .bool true), ("false", .bool false), ("NaN", .decimal .nan),
   ("Infinity", .decimal (.infinite false)), ("-Infinity", .decimal (.infinite true))]

def readScalar (cs : List Char) : Except Stop (Json × List Char) :=
  let word? := wordValues.findSome? fun (word, value) =>
    (afterWord? word.toList cs).map fun rest => (value, rest)
  match word? with
  | some found => .ok found
  | none => readNumber cs

/-- Sets an entry; a repeated key keeps its first place and its last value. -/
def setEntry (key : String) (value : Json) : List (String × Json) → List (String × Json)
  | [] => [(key, value)]
  | (k, v) :: entries =>
    if k = key then (key, value) :: entries else (k, v) :: setEntry key value entries

mutual

/-- A value at the start of the text, in which so many levels of lists and objects may stand; none
if there is a lone surrogate in it. Every value takes a character at least, and an item of a list a
comma or a bracket more, so twice the length of the text is fuel enough, and what is left of it is
enough for a string. -/
def readValue (levels : Nat) : Nat → List Char → Except Stop (Option Json × List Char)
  | 0, cs => .error ⟨.expectingValue, cs⟩
  | fuel + 1, cs =>
    match cs with
    | '"' :: rest => do
      let (text?, after) ← readString fuel rest
      .ok (text?.map .text, after)
    | '\x7b' :: rest =>
      if levels = 0 then .error ⟨.deepObject, cs⟩
      else
        match skipGaps rest with
        | '\x7d' :: after => .ok (some (.object []), after)
        | rest => readEntries (levels - 1) fuel (some []) rest
    | '[' :: rest =>
      if levels = 0 then .error ⟨.deepList, cs⟩
      else
        match skipGaps rest with
        | ']' :: after => .ok (some (.list []), after)
        | rest => readItems (levels - 1) fuel (some []) rest
    | cs => (readScalar cs).map fun (value, after) => (some value, after)

/-- The items of a list after its opening bracket, given those already read, last first. -/
def readItems (levels : Nat) :
    Nat → Option (List Json) → List Char → Except Stop (Option Json × List Char)
  | 0, _, cs => .error ⟨.expectingValue, cs⟩
  | fuel + 1, items?, cs => do
    let (item?, rest) ← readValue levels fuel cs
    let items? := do return (← item?) :: (← items?)
    match skipGaps rest with
    | ']' :: after => .ok (items?.map (.list ·.reverse), after)
    | ',' :: after => readItems levels fuel items? (skipGaps after)
    | rest => .error ⟨.expectingComma, rest⟩

def readEntries (levels : Nat) :
    Nat → Option (List (String × Json)) → List Char → Except Stop (Option Json × List Char)
  | 0, _, cs => .error ⟨.expectingKey, cs⟩
  | fuel + 1, entries?, cs =>
    match cs with
    | '"' :: rest => do
      let (key?, rest) ← readString fuel rest
      match skipGaps rest with
      | ':' :: rest => do
        let (value?, rest) ← readValue levels fuel (skipGaps rest)
        let entries? := do return setEntry (← key?) (← value?) (← entries?)
        match skipGaps rest with
        | '\x7d' :: after => .ok (entries?.map .object, after)
        | ',' :: after => readEntries levels fuel entries? (skipGaps after)
        | rest => .error ⟨.expectingComma, rest⟩
      | rest => .error ⟨.expectingColon, rest⟩
    | cs => .error ⟨.expectingKey, cs⟩

end

/-- A whole text as one value, in which so many levels may stand. -/
def readDocument (levels : Nat) (cs : List Char) : Except Stop Json :=
  if cs.head? = some (Char.ofNat 0xfeff) then .error ⟨.byteOrderMark, cs⟩
  else do
    let (value?, rest) ← readValue levels (2 * cs.length + 1) (skipGaps cs)
    match skipGaps rest, value? with
    | [], some value => .ok value
    | [], none => .error ⟨.loneSurrogate, cs⟩
    | rest, _ => .error ⟨.extraData, rest⟩

/-- Why and where a text is no document: the offset counts characters from zero, line and column
from one. -/
structure SyntaxError where
  cause : SyntaxCause
  offset : Nat
  line : Nat
  column : Nat
  deriving DecidableEq, Repr

def SyntaxError.message (e : SyntaxError) : String :=
  s!"{e.cause.message}: line {e.line} column {e.column} (char {e.offset})"

def Stop.locate (whole : List Char) (stop : Stop) : SyntaxError :=
  let before := whole.take (whole.length - stop.rest.length)
  { cause := stop.cause
    offset := before.length
    line := before.count '\n' + 1
    column := (before.reverse.takeWhile (· ≠ '\n')).length + 1 }

/-- Reads a document from a text. Where no limit is given, no text has more levels than
characters. -/
def ofText (source : String) (limit : Option Nat := none) : Except SyntaxError Json :=
  (readDocument (limit.getD source.length) source.toList).mapError (Stop.locate source.toList)

end ProtoSdl.Json
