import ProtoSdl.Descriptor
import ProtoSdl.Plugin
import ProtoSdl.Wire.Basic

/-!
# Descriptors on the wire

Descriptor sets and plugin requests are read from their binary form, and responses are written in
it. Each declaration reads the fields it needs by their numbers.
-/

namespace ProtoSdl.Wire

def fieldKind (number : Nat) : Descriptor.FieldKind :=
  match Descriptor.FieldKind.names[number - 1]? with
  | some (_, kind) => if number = 0 then .double else kind
  | none => .double

def label : Nat → Descriptor.Label
  | 2 => .required
  | 3 => .repeated
  | _ => .optional

def readField (fields : Fields) : Option Descriptor.Field := do
  let options ← fields.message 8
  return {
    name := ← fields.text 1
    kind := fieldKind ((fields.number? 5).getD 1)
    typeName := ← fields.text 6
    label := label ((fields.number? 4).getD 1)
    oneofIndex := (fields.number? 9).map signed
    proto3Optional := fields.flag 17
    isDeprecated := options.flag 3 }

def readEnumValue (fields : Fields) : Option Descriptor.EnumValue := do
  let options ← fields.message 3
  return { name := ← fields.text 1, isDeprecated := options.flag 1 }

def readEnum (fields : Fields) : Option Descriptor.Enum := do
  let values ← (← fields.messages 2).mapM readEnumValue
  return { name := ← fields.text 1, values }

/-- Reads a message with those nested in it, up to so many levels. -/
def readMessage : Nat → Fields → Option Descriptor.Message
  | 0, _ => none
  | levels + 1, fields => do
    let options ← fields.message 7
    let nested ← (← fields.messages 3).mapM (readMessage levels)
    return {
      name := ← fields.text 1
      fields := ← (← fields.messages 2).mapM readField
      nested
      enums := ← (← fields.messages 4).mapM readEnum
      oneofs := ← (← fields.messages 8).mapM (·.text 1)
      isMapEntry := options.flag 7 }

def readMethod (fields : Fields) : Option Descriptor.Method := do
  let options ← fields.message 4
  return {
    name := ← fields.text 1
    input := ← fields.text 2
    output := ← fields.text 3
    clientStreaming := fields.flag 5
    serverStreaming := fields.flag 6
    isDeprecated := options.flag 33 }

def readService (fields : Fields) : Option Descriptor.Service := do
  return { name := ← fields.text 1, methods := ← (← fields.messages 2).mapM readMethod }

/-- The numbers of a repeated field, one by one or several at once. -/
def readPath (fields : Fields) : Option (List Int) := do
  let parts ← fields.mapM fun
    | (1, .number value) => some [value]
    | (1, .bytes content) => readNumbers content.length content
    | _ => some []
  return parts.flatten.map signed

def readLocation (fields : Fields) : Option Descriptor.Location := do
  return {
    path := ← readPath fields
    leading := ← fields.text 3
    trailing := ← fields.text 4 }

def maxLevels : Nat := 100

def readFile (fields : Fields) : Option Descriptor.File := do
  let sourceInfo ← fields.message 9
  return {
    name := ← fields.text 1
    package := ← fields.text 2
    syntaxName := ← fields.text 12
    messages := ← (← fields.messages 4).mapM (readMessage maxLevels)
    enums := ← (← fields.messages 5).mapM readEnum
    services := ← (← fields.messages 6).mapM readService
    locations := ← (← sourceInfo.messages 1).mapM readLocation }

def readDescriptorSet (bytes : Bytes) : Option (List Descriptor.File) := do
  (← (← fields bytes).messages 1).mapM readFile

def readRequest (bytes : Bytes) : Option Plugin.Request := do
  let fields ← fields bytes
  return {
    files := ← (← fields.messages 15).mapM readFile
    names := ← fields.texts 1
    parameter := ← fields.text 2 }

def writeFile (file : String × String) : Bytes :=
  writeBytes 1 (textBytes file.1) ++ writeBytes 15 (textBytes file.2)

def writeResponse (response : Plugin.Response) : Bytes :=
  (match response.error with
    | some message => writeBytes 1 (textBytes message)
    | none => [])
  ++ writeValue 2 Plugin.supportedFeatures
  ++ response.files.flatMap fun file => writeBytes 15 (writeFile file)

end ProtoSdl.Wire
