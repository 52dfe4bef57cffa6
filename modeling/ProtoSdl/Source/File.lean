import ProtoSdl.Options.Index
import ProtoSdl.Source.Address
import ProtoSdl.Source.Basic
import ProtoSdl.Source.Site

/-!
# Source files

The source declarations of a described file. Faults are looked for in the order services, messages
from the outside inwards, comments; within a message the places in oneofs come before the foreign
keys of its fields.
-/

namespace ProtoSdl.Source

open Descriptor (qualifiedName)

def Home.ofDescriptor (index : Options.Index) (position : Nat) (file : Descriptor.File) : Home :=
  { position
    name := file.name
    package := file.package
    syntaxName := if file.syntaxName = "" then "proto2" else file.syntaxName
    nameSpace := (index.file file.name).nameSpace }

def membership? (oneofs : List String) (field : Descriptor.Field) :
    Except Fault (Option Membership) :=
  if field.proto3Optional then .ok none
  else match field.oneofIndex with
    | none => .ok none
    | some written =>
      match Descriptor.position? oneofs.length written with
      | none => .error (.defect .indexOutOfRange)
      | some position => .ok (some { written, position, oneof := oneofs[position]?.getD "" })

def Field.ofDescriptor (index : Options.Index) (parent : String) (field : Descriptor.Field)
    (membership : Option Membership) : Except Fault Field := do
  let foreignKey ←
    Options.ForeignKey.ofValue (index.field (parent ++ "." ++ field.name)).foreignKey
  return {
    name := field.name
    kind := field.kind
    typeName := field.typeName
    label := field.label
    membership
    proto3Optional := field.proto3Optional
    isDeprecated := field.isDeprecated
    foreignKey }

def Message.ofSite (index : Options.Index) (home : Home) (site : MessageSite) :
    Except Fault Message := do
  let message := site.message
  let name := qualifiedName home.package site.path
  let memberships ← message.fields.mapM (membership? message.oneofs)
  let fields ← (message.fields.zip memberships).mapM fun (field, membership) =>
    Field.ofDescriptor index name field membership
  return {
    home
    address := site.address
    path := site.path
    fullName := name
    parent := if site.path.length ≤ 1 then none else qualifiedName home.package site.path.dropLast
    nested := message.nested.map fun inner => qualifiedName home.package (site.path ++ [inner.name])
    enums := message.enums.map fun inner => qualifiedName home.package (site.path ++ [inner.name])
    isMap := message.isMapEntry
    fields
    oneofNames := message.oneofs }

def EnumValue.ofDescriptor (index : Options.Index) (parent : String)
    (value : Descriptor.EnumValue) : EnumValue :=
  let note := index.enumValue (parent ++ "." ++ value.name)
  { name := value.name
    displayName := if note.name.isSet then note.name else .text value.name
    skip := note.skip
    isDeprecated := note.deprecated.isSet || value.isDeprecated }

def Enum.ofSite (index : Options.Index) (home : Home) (site : EnumSite) : Enum :=
  let name := qualifiedName home.package site.path
  { home
    owner := site.owner
    position := site.position
    path := site.path
    fullName := name
    parent := if site.owner = [] then none else qualifiedName home.package site.ownerPath
    values := site.enum.values.map (EnumValue.ofDescriptor index name) }

def Method.ofDescriptor (index : Options.Index) (service : String) (method : Descriptor.Method) :
    Except Fault Method := do
  let note := index.method (service ++ "." ++ method.name)
  let one ← Options.Loader.ofValue false note.loadOne
  let many ← Options.Loader.ofValue true note.loadMany
  return {
    name := method.name
    input := method.input
    output := method.output
    isStreaming := method.clientStreaming || method.serverStreaming
    isDeprecated := method.isDeprecated
    operation := note.operation
    skip := note.skip
    loaders := one.toList ++ many.toList }

def Service.ofDescriptor (index : Options.Index) (home : Home) (service : Descriptor.Service) :
    Except Fault Service := do
  let name := qualifiedName home.package [service.name]
  let methods ← service.methods.mapM (Method.ofDescriptor index name)
  return { home, name := service.name, fullName := name, skip := (index.service name).skip, methods }

def Message.annotate (notes : Notes) (message : Message) : Message :=
  { message with
    comments := notes.get (.message message.address)
    oneofComments := notes.oneofs message.address
    fields := message.fields.zipIdx.map fun (field, position) =>
      { field with comments := notes.get (.field message.address position) } }

def Enum.annotate (notes : Notes) (enum : Enum) : Enum :=
  { enum with
    comments := notes.get (.enum enum.owner enum.position)
    values := enum.values.zipIdx.map fun (value, position) =>
      { value with comments := notes.get (.enumValue enum.owner enum.position position) } }

def Service.annotate (notes : Notes) (service : Service) (position : Nat) : Service :=
  { service with
    comments := notes.get (.service position)
    methods := service.methods.zipIdx.map fun (method, index) =>
      { method with comments := notes.get (.method position index) } }

/-- The source declarations of a described file, the `position`-th of the input. -/
def File.ofDescriptor (index : Options.Index) (position : Nat) (file : Descriptor.File) :
    Except Fault File := do
  let home := Home.ofDescriptor index position file
  let services ← file.services.mapM (Service.ofDescriptor index home)
  let messages ← (fileMessageSites file).mapM (Message.ofSite index home)
  let enums := (fileEnumSites file).map (Enum.ofSite index home)
  let notes ← (Notes.ofFile file).mapError Fault.defect
  return {
    home
    messages := messages.map (Message.annotate notes)
    enums := enums.map (Enum.annotate notes)
    services := services.zipIdx.map fun (service, place) => service.annotate notes place }

end ProtoSdl.Source
