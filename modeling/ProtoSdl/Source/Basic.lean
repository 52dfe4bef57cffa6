import ProtoSdl.Descriptor
import ProtoSdl.Json.Basic
import ProtoSdl.Options.Reference

/-!
# Source declarations

The declarations of a file with what the compiler knows about them: qualified names, options and
comments. Messages stand in one list, whatever their nesting. The members of a oneof are collapsed
into one slot, at the place of the first of them.
-/

namespace ProtoSdl.Source

structure Home where
  /-- The place of the file among the input files. -/
  position : Nat
  name : String
  package : String
  /-- The version of the language, never empty. -/
  syntaxName : String
  /-- The namespace option as it was given. -/
  nameSpace : Json

/-- Whether fields without a label are optional by the rules of the second version. -/
def Home.hasOptionalFields (home : Home) : Bool :=
  home.syntaxName = "proto2"

/-- The place of a field in a oneof: the index as it was written, the place it names, and the name
of the oneof there. -/
structure Membership where
  written : Int
  position : Nat
  oneof : String
  deriving DecidableEq, Repr

structure Field where
  name : String
  kind : Descriptor.FieldKind
  typeName : String
  label : Descriptor.Label
  membership : Option Membership
  proto3Optional : Bool
  isDeprecated : Bool
  foreignKey : Option Options.ForeignKey
  comments : String := ""
  deriving DecidableEq, Repr

def Field.isRepeated (field : Field) : Bool :=
  field.label = .repeated

/-- Whether a field was declared optional, in the words of either version. -/
def Field.isExplicitlyOptional (home : Home) (field : Field) : Bool :=
  field.proto3Optional || (home.hasOptionalFields && field.label = .optional)

/-- A place among the effective fields of a message: a plain field, or a oneof. -/
inductive Slot
  | field (field : Field)
  | oneof (place : Membership) (comments : String)
  deriving DecidableEq, Repr

structure Oneof where
  name : String
  position : Nat
  members : List Field
  deriving DecidableEq, Repr

/-- Whether a oneof has no members: it then only marks an optional field. -/
def Oneof.isSynthetic (oneof : Oneof) : Bool :=
  oneof.members.isEmpty

/-- The slots of a list of fields. A member of a oneof gives a slot unless the index it was written
with was seen before; `comments` gives the comment of a oneof by that index. -/
def slotsFrom (comments : Int → String) : List Int → List Field → List Slot
  | _, [] => []
  | seen, field :: fields =>
    match field.membership with
    | none => .field field :: slotsFrom comments seen fields
    | some place =>
      if place.written ∈ seen then slotsFrom comments seen fields
      else .oneof place (comments place.written)
        :: slotsFrom comments (place.written :: seen) fields

structure Message where
  home : Home
  /-- The positions that lead to the message, from the file inwards. -/
  address : List Nat
  /-- The names of the messages around it, outermost first, and its own. -/
  path : List String
  fullName : String
  parent : Option String
  nested : List String
  enums : List String
  isMap : Bool
  /-- All fields in the order of their declaration. -/
  fields : List Field
  oneofNames : List String
  /-- The comments of the oneofs by the index they were addressed with, latest first. -/
  oneofComments : List (Int × String) := []
  comments : String := ""

namespace Message

def name (message : Message) : String :=
  message.path.getLast?.getD ""

def oneofComment (message : Message) (index : Int) : String :=
  ((message.oneofComments.find? (·.1 = index)).map (·.2)).getD ""

/-- The effective fields: plain fields, and a oneof at the place of its first member. -/
def slots (message : Message) : List Slot :=
  slotsFrom message.oneofComment [] message.fields

def oneofs (message : Message) : List Oneof :=
  message.oneofNames.zipIdx.map fun (name, position) =>
    { name, position
      members := message.fields.filter fun field =>
        field.membership.any (·.position = position) }

/-- The oneofs that have members. -/
def choices (message : Message) : List Oneof :=
  message.oneofs.filter (!·.isSynthetic)

def messageTypes (message : Message) : List String :=
  (message.fields.filter (·.kind = .message)).map (·.typeName)

def memberName (message : Message) (name : String) : String :=
  message.fullName ++ "." ++ name

end Message

structure EnumValue where
  name : String
  /-- The name to show, as it was given if one was. -/
  displayName : Json
  skip : Json
  isDeprecated : Bool
  comments : String := ""

structure Enum where
  home : Home
  /-- The address of the message around it; empty at the top of a file. -/
  owner : List Nat
  position : Nat
  path : List String
  fullName : String
  parent : Option String
  values : List EnumValue
  comments : String := ""

def Enum.name (enum : Enum) : String :=
  enum.path.getLast?.getD ""

structure Method where
  name : String
  input : String
  output : String
  isStreaming : Bool
  isDeprecated : Bool
  operation : Json
  skip : Json
  loaders : List Options.Loader
  comments : String := ""

structure Service where
  home : Home
  name : String
  fullName : String
  skip : Json
  methods : List Method
  comments : String := ""

def Service.methodName (service : Service) (method : Method) : String :=
  service.fullName ++ "." ++ method.name

structure File where
  home : Home
  messages : List Message
  enums : List Enum
  services : List Service

end ProtoSdl.Source
