import ProtoSdl.Mapping.Catalog
import ProtoSdl.Schema.Basic

/-!
# Bodies

The body of a message is what its schema types are made from: its slots and oneofs, with every
reference replaced by the declaration it names. Forming it is the only place where the fields of a
message can fail; the types are then a function of the body.
-/

namespace ProtoSdl

def LongType.scalar : LongType → Schema.BuiltIn
  | string => .string
  | number => .float

namespace Mapping

inductive Referent
  | builtIn (scalar : Schema.BuiltIn)
  | enum (enum : Source.Enum)
  | message (message : Source.Message)

structure TypedField where
  field : Source.Field
  referent : Referent

/-- The object that the key in a field refers to. -/
structure Companion where
  key : Options.ForeignKey
  target : Source.Message

inductive Member
  | plain (field : TypedField) (companion : Option Companion)
  | oneof (place : Source.Membership) (comments : String)

/-- A oneof with the references of its members, and its comments. -/
structure Choice where
  oneof : Source.Oneof
  members : List TypedField
  comments : String

structure Body where
  message : Source.Message
  members : List Member
  choices : List Choice

/-- The scalar of a kind of field that needs no look-up. -/
def builtIn? (long : LongType) : Descriptor.FieldKind → Option Schema.BuiltIn
  | .double | .float => some .float
  | .int32 | .sint32 | .sfixed32 | .uint32 | .fixed32 => some .int
  | .bool => some .boolean
  | .string | .bytes => some .string
  | .int64 | .sint64 | .sfixed64 | .uint64 | .fixed64 => some long.scalar
  | .enum | .message | .group => none

def TypedField.ofField (settings : Settings) (catalog : Catalog) (parent : Source.Message)
    (field : Source.Field) : Except Fault TypedField :=
  let referrer := parent.memberName field.name
  match builtIn? settings.longType field.kind with
  | some scalar => .ok { field, referent := .builtIn scalar }
  | none =>
    match field.kind with
    | .enum => do return { field, referent := .enum (← catalog.enum referrer field.typeName) }
    | .message => do
      return { field, referent := .message (← catalog.message referrer field.typeName) }
    | kind => .error (.mapping (.unexpectedKind referrer kind.name))

def Companion.ofField? (catalog : Catalog) (parent : Source.Message) (field : Source.Field) :
    Except Fault (Option Companion) :=
  match field.foreignKey with
  | none => .ok none
  | some key => do
    let target ← catalog.message (parent.memberName field.name) key.target
    return some { key, target }

def Member.ofSlot (settings : Settings) (catalog : Catalog) (parent : Source.Message) :
    Source.Slot → Except Fault Member
  | .field field => do
    let typed ← TypedField.ofField settings catalog parent field
    return .plain typed (← Companion.ofField? catalog parent field)
  | .oneof place comments => .ok (.oneof place comments)

/-- The comments of the slot that stands for a oneof. -/
def slotComments? (position : Nat) : List Source.Slot → Option String
  | [] => none
  | .field _ :: slots => slotComments? position slots
  | .oneof place comments :: slots =>
    if place.written = position then some comments else slotComments? position slots

/-- A oneof of a message with its references. A oneof has a slot unless its members address it from
the end only. -/
def Choice.ofOneof (settings : Settings) (catalog : Catalog) (parent : Source.Message)
    (oneof : Source.Oneof) : Except Fault Choice :=
  match slotComments? oneof.position parent.slots with
  | none => .error (.defect .unplacedOneof)
  | some comments => do
    let members ← oneof.members.mapM (TypedField.ofField settings catalog parent)
    return { oneof, members, comments }

def Body.ofMessage (settings : Settings) (catalog : Catalog) (message : Source.Message) :
    Except Fault Body := do
  let members ← message.slots.mapM (Member.ofSlot settings catalog message)
  let choices ← message.choices.mapM (Choice.ofOneof settings catalog message)
  return { message, members, choices }

/-- The fields of a body in the order of its types: those in slots, then those in oneofs. -/
def Body.typedFields (body : Body) : List TypedField :=
  body.members.filterMap (fun
    | .plain field _ => some field
    | .oneof _ _ => none)
  ++ body.choices.flatMap (·.members)

end Mapping

end ProtoSdl
