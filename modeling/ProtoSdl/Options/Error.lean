import ProtoSdl.FileTree
import ProtoSdl.Json.Reader

/-!
# Errors of options

The sections of an options document and the causes for which a document, or the text of an option,
is refused.
-/

namespace ProtoSdl.Options

inductive Section
  | files
  | fields
  | enumValues
  | services
  | methods
  deriving DecidableEq, Repr

namespace Section

/-- The sections in the order in which they are read. -/
def all : List Section := [files, fields, enumValues, services, methods]

def key : Section → String
  | files => "files"
  | fields => "fields"
  | enumValues => "enum_values"
  | services => "services"
  | methods => "methods"

/-- The name of an entry's type in a message. -/
def typeName : Section → String
  | files => "FileOptions"
  | fields => "FieldOptions"
  | enumValues => "EnumValueOptions"
  | services => "ServiceOptions"
  | methods => "MethodOptions"

def entryKeys : Section → List String
  | files => ["namespace"]
  | fields => ["foreign_key"]
  | enumValues => ["name", "skip", "deprecated"]
  | services => ["skip"]
  | methods => ["operation", "skip", "load_one", "load_many"]

end Section

inductive EntryFault
  /-- The entry is no object but a value of the named kind. -/
  | notObject (kindName : String)
  | unknownKey (key : String)
  /-- The key `self` is taken by the entry itself. -/
  | reservedKey (key : String)
  deriving DecidableEq, Repr

inductive Error
  /-- Sections that no declaration has, by their shown names. -/
  | unknownSections (names : List String)
  | badEntry (place : Section) (identity : String) (fault : EntryFault)
  | badForeignKey (value : String)
  | badLoader (value : String)
  | unreadable (path : String) (cause : PathError)
  | malformed (path : String) (cause : Json.SyntaxError)
  deriving DecidableEq, Repr

def EntryFault.message (place : Section) : EntryFault → String
  | notObject kindName =>
    "protoc_graphql.descriptor.options." ++ place.typeName
      ++ "() argument after ** must be a mapping, not " ++ kindName
  | unknownKey key =>
    place.typeName ++ ".__init__() got an unexpected keyword argument '" ++ key ++ "'"
  | reservedKey key =>
    place.typeName ++ ".__init__() got multiple values for argument '" ++ key ++ "'"

def Error.message : Error → String
  | unknownSections names => "unknown option sections: [" ++ ", ".intercalate names ++ "]"
  | badEntry place identity fault =>
    "invalid " ++ place.key ++ " options for " ++ identity ++ ": " ++ fault.message place
  | badForeignKey value =>
    "Foreign key expected to have format 'protobuf_type:field_name', got " ++ value
  | badLoader value =>
    "Loader expected to have format 'protobuf_type:request_field_path:response_field_path:"
      ++ "object_key_field_path', got " ++ value
  | unreadable path cause => "cannot read options file " ++ path ++ ": " ++ cause.message
  | malformed path cause => "invalid options file " ++ path ++ ": " ++ cause.message

end ProtoSdl.Options
