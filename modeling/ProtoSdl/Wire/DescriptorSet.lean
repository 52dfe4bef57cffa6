import ProtoSdl.Descriptor
import ProtoSdl.Wire.Basic

/-!
# Descriptor sets

Files written as a descriptor set: every declaration is a message with its parts in the order of
their numbers. Parts that have their default are left out, and fields and enum values are numbered
by their places.
-/

namespace ProtoSdl.Wire

/-- A text, unless it is empty. -/
def writeText (number : Nat) (text : String) : Bytes :=
  if text = "" then [] else writeBytes number (textBytes text)

/-- A truth value, unless it is false. -/
def writeFlag (number : Nat) (flag : Bool) : Bytes :=
  if flag then writeValue number 1 else []

/-- The 64 bits of an integer as a number. -/
def unsigned (value : Int) : Nat :=
  (value % Nat.pow 2 64).toNat

/-- The options of a declaration that has at most one of them, the flag of the given number. -/
def writeOptions (number inner : Nat) (flag : Bool) : Bytes :=
  if flag then writeBytes number (writeValue inner 1) else []

def kindNumber (kind : Descriptor.FieldKind) : Nat :=
  Descriptor.FieldKind.names.findIdx (·.2 = kind) + 1

def labelNumber : Descriptor.Label → Nat
  | .optional => 1
  | .required => 2
  | .repeated => 3

def writeField (field : Descriptor.Field) (position : Nat) : Bytes :=
  writeBytes 1 (textBytes field.name) ++ writeValue 3 (position + 1)
    ++ (if field.label = .optional then [] else writeValue 4 (labelNumber field.label))
    ++ writeValue 5 (kindNumber field.kind) ++ writeText 6 field.typeName
    ++ writeOptions 8 3 field.isDeprecated
    ++ ((field.oneofIndex.map fun index => writeValue 9 (unsigned index)).getD [])
    ++ writeFlag 17 field.proto3Optional

def writeEnumValue (value : Descriptor.EnumValue) (position : Nat) : Bytes :=
  writeBytes 1 (textBytes value.name) ++ writeValue 2 position
    ++ writeOptions 3 1 value.isDeprecated

def writeEnum (enum : Descriptor.Enum) : Bytes :=
  writeBytes 1 (textBytes enum.name)
    ++ enum.values.zipIdx.flatMap fun (value, i) => writeBytes 2 (writeEnumValue value i)

mutual

def writeMessage : Descriptor.Message → Bytes
  | ⟨name, fields, nested, enums, oneofs, isMapEntry⟩ =>
    writeBytes 1 (textBytes name)
      ++ (fields.zipIdx.flatMap fun (field, i) => writeBytes 2 (writeField field i))
      ++ writeMessages 3 nested
      ++ (enums.flatMap fun enum => writeBytes 4 (writeEnum enum))
      ++ writeOptions 7 7 isMapEntry
      ++ oneofs.flatMap fun oneof => writeBytes 8 (writeBytes 1 (textBytes oneof))

def writeMessages (number : Nat) : List Descriptor.Message → Bytes
  | [] => []
  | message :: messages =>
    writeBytes number (writeMessage message) ++ writeMessages number messages

end

def writeMethod (method : Descriptor.Method) : Bytes :=
  writeBytes 1 (textBytes method.name) ++ writeBytes 2 (textBytes method.input)
    ++ writeBytes 3 (textBytes method.output) ++ writeOptions 4 33 method.isDeprecated
    ++ writeFlag 5 method.clientStreaming ++ writeFlag 6 method.serverStreaming

def writeService (service : Descriptor.Service) : Bytes :=
  writeBytes 1 (textBytes service.name)
    ++ service.methods.flatMap fun method => writeBytes 2 (writeMethod method)

def writeLocation (location : Descriptor.Location) : Bytes :=
  (if location.path = [] then []
    else writeBytes 1 (location.path.flatMap fun index => writeNumber (unsigned index)))
  ++ writeText 3 location.leading ++ writeText 4 location.trailing

def writeDescribedFile (file : Descriptor.File) : Bytes :=
  writeBytes 1 (textBytes file.name) ++ writeText 2 file.package
    ++ writeMessages 4 file.messages
    ++ (file.enums.flatMap fun enum => writeBytes 5 (writeEnum enum))
    ++ (file.services.flatMap fun service => writeBytes 6 (writeService service))
    ++ (if file.locations = [] then []
      else writeBytes 9 (file.locations.flatMap fun location =>
        writeBytes 1 (writeLocation location)))
    ++ writeText 12 file.syntaxName

def writeDescriptorSet (files : List Descriptor.File) : Bytes :=
  files.flatMap fun file => writeBytes 1 (writeDescribedFile file)

end ProtoSdl.Wire
