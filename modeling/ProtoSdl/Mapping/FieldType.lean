import ProtoSdl.Mapping.Body
import ProtoSdl.Mapping.Naming

/-!
# Field types

The schema type of a field, as part of an object or of an input. A few well-known messages have
types of their own: the scalars that the settings name, and the values that wrappers hold.
-/

namespace ProtoSdl.Mapping

/-- The two sides of a schema: what is answered and what is given. -/
inductive Mode
  | object
  | input
  deriving DecidableEq, Repr

/-- The custom scalar that the settings give to a message. -/
def customScalar? (settings : Settings) (typeName : String) : Option String :=
  if typeName = ".google.protobuf.Timestamp" then settings.timestamp
  else if typeName = ".google.protobuf.Duration" then settings.duration
  else if typeName = ".google.protobuf.Struct" then settings.struct
  else none

def wrappers (long : LongType) : List (String × Schema.BuiltIn) :=
  [(".google.protobuf.DoubleValue", .float), (".google.protobuf.FloatValue", .float),
   (".google.protobuf.Int64Value", long.scalar), (".google.protobuf.UInt64Value", long.scalar),
   (".google.protobuf.Int32Value", .int), (".google.protobuf.UInt32Value", .int),
   (".google.protobuf.BoolValue", .boolean), (".google.protobuf.StringValue", .string),
   (".google.protobuf.BytesValue", .string)]

/-- The scalar that a message wraps, if the settings unwrap messages. -/
def wrapped? (settings : Settings) (typeName : String) : Option Schema.BuiltIn :=
  if settings.nullWrappers then
    ((wrappers settings.longType).find? (·.1 = typeName)).map (·.2)
  else none

namespace TypedField

def referentName (naming : Naming) (mode : Mode) (typed : TypedField) : Schema.TypeName :=
  match typed.referent with
  | .builtIn scalar => scalar.name
  | .enum enum => naming.enum enum
  | .message message =>
    match mode with
    | .object => naming.object message
    | .input => naming.input message

/-- Whether a single value of a field is never null. The entries of a map are there, and so are
values other than messages in an object, unless they were declared optional; in the entry of a map
nothing is optional. -/
def isRequired (mode : Mode) (parent : Source.Message) (typed : TypedField) : Bool :=
  match typed.referent with
  | .message target => target.isMap
  | _ => mode = .object && !(typed.field.isExplicitlyOptional parent.home && !parent.isMap)

/-- The marks on the type of a field. The items of a list are never null; the list itself may be
left out of an input. -/
def modifiers (mode : Mode) (parent : Source.Message) (typed : TypedField) : Schema.Modifiers :=
  if typed.field.isRepeated then
    { nonNull := true, list := true, nonNullList := mode = .object }
  else { nonNull := typed.isRequired mode parent }

def declare (naming : Naming) (mode : Mode) (parent : Source.Message) (typed : TypedField) :
    Schema.Field :=
  let field := typed.field
  let marks := typed.modifiers mode parent
  let (typeName, modifiers) : Schema.TypeName × Schema.Modifiers :=
    match customScalar? naming.settings field.typeName with
    | some scalar => (scalar, marks)
    | none =>
      match wrapped? naming.settings field.typeName with
      | some scalar => (scalar.name, { marks with nonNull := false })
      | none => (typed.referentName naming mode, marks)
  { name := naming.settings.fieldName field.name
    typeName
    modifiers
    directives := Schema.deprecation field.isDeprecated
    description := field.comments }

end TypedField

def Companion.declare (naming : Naming) (field : Source.Field) (companion : Companion) :
    Schema.Field :=
  { name := naming.settings.fieldName companion.key.fieldName
    typeName := naming.object companion.target
    modifiers :=
      if field.isRepeated then { nonNull := true, list := true, nonNullList := true }
      else .nullable }

def Body.customScalars (settings : Settings) (body : Body) : List String :=
  body.typedFields.filterMap fun typed => customScalar? settings typed.field.typeName

end ProtoSdl.Mapping
