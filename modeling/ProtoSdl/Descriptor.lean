/-!
# Descriptors

Protobuf declarations as a compiler describes them: files of messages, enums and services, with
messages and enums nested in messages, and with the source locations that carry comments.
-/

namespace ProtoSdl.Descriptor

inductive FieldKind
  | double | float | int64 | uint64 | int32 | fixed64 | fixed32 | bool | string | group | message
  | bytes | uint32 | enum | sfixed32 | sfixed64 | sint32 | sint64
  deriving DecidableEq, Repr

/-- The kinds with their names, in the order of their numbers, which start at one. -/
def FieldKind.names : List (String × FieldKind) :=
  [("DOUBLE", double), ("FLOAT", float), ("INT64", int64), ("UINT64", uint64), ("INT32", int32),
   ("FIXED64", fixed64), ("FIXED32", fixed32), ("BOOL", bool), ("STRING", string),
   ("GROUP", group), ("MESSAGE", message), ("BYTES", bytes), ("UINT32", uint32), ("ENUM", enum),
   ("SFIXED32", sfixed32), ("SFIXED64", sfixed64), ("SINT32", sint32), ("SINT64", sint64)]

def FieldKind.ofName? (name : String) : Option FieldKind :=
  (names.find? (·.1 = name)).map (·.2)

def FieldKind.name (kind : FieldKind) : String :=
  ((names.find? (·.2 = kind)).map (·.1)).getD ""

inductive Label
  | optional
  | required
  | repeated
  deriving DecidableEq, Repr

structure Field where
  name : String
  kind : FieldKind := .double
  /-- The qualified name of the message or enum of the field. -/
  typeName : String := ""
  label : Label := .optional
  /-- The oneof the field belongs to; a negative index counts from the end. -/
  oneofIndex : Option Int := none
  proto3Optional : Bool := false
  isDeprecated : Bool := false
  deriving DecidableEq, Repr

structure EnumValue where
  name : String
  isDeprecated : Bool := false
  deriving DecidableEq, Repr

structure Enum where
  name : String
  values : List EnumValue := []
  deriving DecidableEq, Repr

structure Message where
  name : String
  fields : List Field := []
  nested : List Message := []
  enums : List Enum := []
  /-- The names of the oneofs. -/
  oneofs : List String := []
  isMapEntry : Bool := false
  deriving Repr, Inhabited

structure Method where
  name : String
  input : String := ""
  output : String := ""
  clientStreaming : Bool := false
  serverStreaming : Bool := false
  isDeprecated : Bool := false
  deriving DecidableEq, Repr

structure Service where
  name : String
  methods : List Method := []
  deriving DecidableEq, Repr

/-- A place in the source with the comments around it. The path leads to a declaration by field
numbers and positions. -/
structure Location where
  path : List Int
  leading : String := ""
  trailing : String := ""
  deriving DecidableEq, Repr

structure File where
  name : String
  package : String := ""
  /-- The version of the language; empty text stands for the second. -/
  syntaxName : String := ""
  messages : List Message := []
  enums : List Enum := []
  services : List Service := []
  locations : List Location := []
  deriving Repr

/-- The place that an index names in a list of the given length: a negative index counts from the
end. -/
def position? (length : Nat) (index : Int) : Option Nat :=
  if 0 ≤ index then
    if index.toNat < length then some index.toNat else none
  else if (-index).toNat ≤ length then some (length - (-index).toNat) else none

/-- Whether a field stands in a oneof. An optional field of the third version has a oneof of its
own and counts as plain. -/
def Field.isMember (field : Field) : Bool :=
  field.oneofIndex.isSome && !field.proto3Optional

/-- The qualified name of a declaration: its package and its path, each after a dot. -/
def qualifiedName (package : String) (path : List String) : String :=
  if package = "" then "." ++ ".".intercalate path else "." ++ package ++ "." ++ ".".intercalate path

theorem position?_lt {length : Nat} {index : Int} {i : Nat} (h : position? length index = some i) :
    i < length := by
  grind [position?]

end ProtoSdl.Descriptor
